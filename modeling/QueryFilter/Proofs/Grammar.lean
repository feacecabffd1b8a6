import QueryFilter.Proofs.Bodies

/-!
The grammar of query documents. Filters out of the checked constructors render
to documents of this grammar: their combinations have parts, their operators
have operands of the right form, and only operators that have no opposite of
their own are put under `$not`.
-/

namespace QueryFilter

namespace Query

/-! ### The grammar -/

/-- The operators that have an opposite, and `$not` itself. -/
def opposed : List String := ["$not", "$eq", "$ne", "$in", "$nin", "$exists"]

mutual

/-- Query documents: the empty one, a combination of others, or one field with
its value or its condition. -/
inductive IsQuery : Json → Prop where
  | everything : IsQuery (.object [])
  | combination {key : String} {parts : List Json} : isCombinator key = true → parts ≠ [] →
      (∀ part ∈ parts, IsQuery part) → IsQuery (.object [(key, .array parts)])
  | value {key : String} {value : Json} : isReserved key = false → value.isObject = false →
      IsQuery (.object [(key, value)])
  | condition {key : String} {operators : Fields} : isReserved key = false →
      IsCondition operators → IsQuery (.object [(key, .object operators)])

/-- Operator documents. Options come with the regular expression they are for. -/
inductive IsCondition : Fields → Prop where
  | intro {operators : Fields} : operators ≠ [] → (operators.map (·.1)).Nodup →
      ("$options" ∈ operators.map (·.1) → "$regex" ∈ operators.map (·.1)) →
      (∀ o ∈ operators, IsOperation o.1 o.2) → IsCondition operators

/-- Operators with their operands. -/
inductive IsOperation : String → Json → Prop where
  | compare {key : String} (operand : Json) :
      key ∈ ["$eq", "$ne", "$lt", "$lte", "$gt", "$gte"] → IsOperation key operand
  | oneOf {key : String} (operands : List Json) :
      key ∈ ["$in", "$nin"] → IsOperation key (.array operands)
  | presence (expected : Bool) : IsOperation "$exists" (.bool expected)
  | regex (pattern : String) : IsOperation "$regex" (.string pattern)
  | options {options : String} : options ≠ "" → IsOperation "$options" (.string options)
  | size {length : Int} : 0 ≤ length → IsOperation "$size" (.int length)
  | mod {divisor : Int} (remainder : Int) : divisor ≠ 0 →
      IsOperation "$mod" (.array [.int divisor, .int remainder])
  | itemCondition {operators : Fields} : IsCondition operators →
      IsOperation "$elemMatch" (.object operators)
  | itemQuery {document : Json} : IsQuery document → IsOperation "$elemMatch" document
  | not {operators : Fields} : IsCondition operators →
      (∀ key ∈ operators.map (·.1), key ∉ opposed) → IsOperation "$not" (.object operators)

end

/-! ### Operator documents -/

theorem isCondition_single {key : String} {operand : Json} (h : IsOperation key operand)
    (hkey : key ≠ "$options") : IsCondition [(key, operand)] := by
  refine .intro (List.cons_ne_nil _ _) (List.pairwise_singleton _ _) (fun hmem => ?_) ?_
  · exact absurd (List.mem_singleton.mp hmem).symm hkey
  · exact List.forall_mem_singleton.mpr h

theorem isCondition_negatedFields {operators : Fields} (h : IsCondition operators)
    (hplain : ∀ key ∈ operators.map (·.1), key ∉ opposed) :
    IsCondition (Test.negatedFields operators) :=
  isCondition_single (.not h hplain) (by decide)

/-- The union of operator documents. -/
theorem isCondition_flatten {documents : List Fields} {merged : Fields} (hne : documents ≠ [])
    (h : ∀ document ∈ documents, IsCondition document) (hperm : merged.Perm documents.flatten)
    (hnodup : (merged.map (·.1)).Nodup) : IsCondition merged := by
  have hmem {key : String} : key ∈ merged.map (·.1) ↔
      ∃ document ∈ documents, key ∈ document.map (·.1) := by
    rw [(hperm.map _).mem_iff, List.map_flatten]
    simp only [List.mem_flatten, List.mem_map]
    constructor
    · rintro ⟨_, ⟨document, hdocument, rfl⟩, hkey⟩
      exact ⟨document, hdocument, List.mem_map.mp hkey⟩
    · rintro ⟨document, hdocument, hkey⟩
      exact ⟨_, ⟨document, hdocument, rfl⟩, List.mem_map.mpr hkey⟩
  refine .intro ?_ hnodup (fun hoptions => ?_) fun o ho => ?_
  · obtain ⟨document, hdocument⟩ := List.exists_mem_of_ne_nil _ hne
    obtain ⟨hdocumentNe, -, -, -⟩ := h document hdocument
    rintro rfl
    exact hdocumentNe (List.flatten_eq_nil_iff.mp hperm.symm.eq_nil document hdocument)
  · obtain ⟨document, hdocument, hkey⟩ := hmem.mp hoptions
    obtain ⟨-, -, hregex, -⟩ := h document hdocument
    exact hmem.mpr ⟨document, hdocument, hregex hkey⟩
  · obtain ⟨document, hdocument, ho⟩ := List.mem_flatten.mp (hperm.mem_iff.mp ho)
    obtain ⟨-, -, -, hoperations⟩ := h document hdocument
    exact hoperations o ho

theorem isCondition_document {path : Path} {t : Test} (h : (Filter.test path t).Sound) :
    IsCondition t.document := by
  cases t with
  | presence expected => exact isCondition_single (.presence expected) (by decide)
  | compare how value =>
      cases how <;> exact isCondition_single (.compare value (by decide)) (by decide)
  | oneOf values => exact isCondition_single (.oneOf values (by decide)) (by decide)
  | noneOf values => exact isCondition_single (.oneOf values (by decide)) (by decide)
  | regex pattern o =>
      by_cases ho : o = ""
      · subst ho
        exact isCondition_single (.regex pattern) (by decide)
      · rw [Test.document, if_neg ho]
        refine .intro (by simp) (by simp) (by simp) ?_
        simpa using And.intro (IsOperation.options ho) (.regex pattern)
  | size length => exact isCondition_single (.size (Int.natCast_nonneg length)) (by decide)
  | mod divisor remainder => exact isCondition_single (.mod remainder h) (by decide)

theorem isCondition_negated {path : Path} {t : Test} (h : (Filter.test path t).Sound) :
    IsCondition t.negated := by
  have hdocument := isCondition_document h
  cases t with
  | presence expected => exact isCondition_single (.presence _) (by decide)
  | compare how value =>
      cases how with
      | eq | ne => exact isCondition_single (.compare value (by decide)) (by decide)
      | lt | le | gt | ge =>
          refine isCondition_negatedFields hdocument ?_
          simp [Test.document, opposed, Comparison.operator]
  | oneOf values => exact isCondition_single (.oneOf values (by decide)) (by decide)
  | noneOf values => exact isCondition_single (.oneOf values (by decide)) (by decide)
  | regex pattern o =>
      refine isCondition_negatedFields hdocument ?_
      by_cases ho : o = "" <;> simp [Test.document, opposed, ho]
  | size | mod => exact isCondition_negatedFields hdocument (by simp [Test.document, opposed])

theorem isCondition_elemMatchFields {document : Json} (h : IsOperation "$elemMatch" document) :
    IsCondition (Filter.elemMatchFields document) :=
  isCondition_single h (by decide)

theorem isCondition_negated_elemMatch {document : Json} (h : IsOperation "$elemMatch" document) :
    IsCondition (Test.negatedFields (Filter.elemMatchFields document)) :=
  isCondition_negatedFields (isCondition_elemMatchFields h) (by simp [Filter.elemMatchFields, opposed])

/-! ### Fields -/

theorem isQuery_shortForm {key : String} {operators : Fields} (hkey : isReserved key = false)
    (h : IsCondition operators) : IsQuery (.single key (Filter.shortForm operators)) := by
  unfold Filter.shortForm
  split
  · rename_i value _
    split
    · exact .condition hkey h
    · rename_i hobject
      exact .value hkey (by simpa using hobject)
  · exact .condition hkey h

theorem isOperation_elementDocument {body : Filter} {d : Json}
    (hrender : ∀ d, body.render = .ok d → IsQuery d)
    (hitem : ∀ operators, body.itemDocument = .ok operators → IsCondition operators)
    (h : body.elementDocument = .ok d) : IsOperation "$elemMatch" d := by
  unfold Filter.elementDocument at h
  split at h
  · obtain ⟨operators, hoperators, rfl⟩ := map_eq_ok.mp h
    exact .itemCondition (hitem operators hoperators)
  · exact .itemQuery (hrender d h)

/-- The document of one field under its path. -/
theorem isQuery_atPath {path : Path} {operation d : Json} (h : Filter.atPath path operation = .ok d)
    (hquery : IsQuery (.single path.text operation)) : IsQuery d := by
  rw [(Filter.atPath_eq_ok_iff.mp h).2]
  exact hquery

/-! ### Filters -/

/-- Every node is as the checked constructors leave it. -/
abbrev SoundNodes (nodes : List Filter) : Prop := ∀ g ∈ nodes, g.Sound

theorem soundNodes_cons {f : Filter} {nodes : List Filter} :
    SoundNodes (f :: nodes) ↔ f.Sound ∧ SoundNodes nodes :=
  List.forall_mem_cons

theorem soundNodes_append {left right : List Filter} :
    SoundNodes (left ++ right) ↔ SoundNodes left ∧ SoundNodes right :=
  List.forall_mem_append

/-! One induction over filters, along the functions that render them. Nodes are
sound all the way down, which is where parts and divisors are needed. -/

mutual

theorem isQuery_render : ∀ (f : Filter) (d : Json), Unreserved f.paths → SoundNodes f.nodes →
    f.render = .ok d → IsQuery d
  | .test path t, d, hp, hs, h => by
      have hpath := (unreserved_cons.mp hp).1
      have ht := (soundNodes_cons.mp hs).1
      exact isQuery_atPath h (isQuery_shortForm hpath (isCondition_document ht))
  | .elemMatch path body, d, hp, hs, h => by
      rw [Filter.render_elemMatch] at h
      obtain ⟨document, hdocument, h⟩ := bind_eq_ok.mp h
      obtain ⟨hpath, hp⟩ := unreserved_cons.mp hp
      obtain ⟨-, hs⟩ := soundNodes_cons.mp hs
      have hoperation := isOperation_elementDocument (fun d hd => isQuery_render body d hp hs hd)
        (fun operators ho => isCondition_itemDocument body operators hp hs ho) hdocument
      exact isQuery_atPath h (.condition hpath (isCondition_elemMatchFields hoperation))
  | .and filters, d, hp, hs, h | .or filters, d, hp, hs, h => by
      obtain ⟨children, hchildren, ⟨⟩⟩ := bind_eq_ok.mp h
      obtain ⟨⟨hne, -⟩, hs⟩ := soundNodes_cons.mp hs
      obtain ⟨hparts, hall⟩ := isQuery_renderAll filters children hp hs hchildren
      exact .combination (by decide) (hparts hne) hall
  | .nor filters, d, hp, hs, h => by
      obtain ⟨children, hchildren, ⟨⟩⟩ := bind_eq_ok.mp h
      obtain ⟨hne, hs⟩ := soundNodes_cons.mp hs
      obtain ⟨hparts, hall⟩ := isQuery_renderAll filters children hp hs hchildren
      exact .combination (by decide) (hparts hne) hall
  | .not filter, d, hp, hs, h =>
      isQuery_renderNegation filter d hp (soundNodes_cons.mp hs).2 h
  | .everything, d, hp, hs, h => by
      cases h
      exact .everything
  | .nothing, d, hp, hs, h => by
      cases h
      exact .combination (by decide) (by simp) (List.forall_mem_singleton.mpr .everything)

theorem isQuery_renderAll : ∀ (fs : List Filter) (ds : List Json),
    Unreserved (Filter.allPaths fs) → SoundNodes (Filter.allNodes fs) →
    Filter.renderAll fs = .ok ds → (fs ≠ [] → ds ≠ []) ∧ ∀ d ∈ ds, IsQuery d
  | [], ds, hp, hs, h => by
      cases h
      exact ⟨fun hne => absurd rfl hne, List.forall_mem_nil _⟩
  | f :: fs, ds, hp, hs, h => by
      obtain ⟨d, hd, h⟩ := bind_eq_ok.mp h
      obtain ⟨rest, hrest, ⟨⟩⟩ := bind_eq_ok.mp h
      obtain ⟨hpf, hpfs⟩ := unreserved_append.mp hp
      obtain ⟨hsf, hsfs⟩ := soundNodes_append.mp hs
      exact ⟨fun _ => List.cons_ne_nil _ _, List.forall_mem_cons.mpr
        ⟨isQuery_render f d hpf hsf hd, (isQuery_renderAll fs rest hpfs hsfs hrest).2⟩⟩

theorem isQuery_renderNegation : ∀ (f : Filter) (d : Json), Unreserved f.paths →
    SoundNodes f.nodes → f.renderNegation = .ok d → IsQuery d
  | .test path t, d, hp, hs, h => by
      have hpath := (unreserved_cons.mp hp).1
      have ht := (soundNodes_cons.mp hs).1
      exact isQuery_atPath h (isQuery_shortForm hpath (isCondition_negated ht))
  | .elemMatch path body, d, hp, hs, h => by
      rw [Filter.renderNegation_elemMatch] at h
      obtain ⟨document, hdocument, h⟩ := bind_eq_ok.mp h
      obtain ⟨hpath, hp⟩ := unreserved_cons.mp hp
      obtain ⟨-, hs⟩ := soundNodes_cons.mp hs
      have hoperation := isOperation_elementDocument (fun d hd => isQuery_render body d hp hs hd)
        (fun operators ho => isCondition_itemDocument body operators hp hs ho) hdocument
      exact isQuery_atPath h (.condition hpath (isCondition_negated_elemMatch hoperation))
  | .and filters, d, hp, hs, h => by
      obtain ⟨children, hchildren, ⟨⟩⟩ := bind_eq_ok.mp h
      obtain ⟨⟨hne, -⟩, hs⟩ := soundNodes_cons.mp hs
      obtain ⟨hparts, hall⟩ := isQuery_renderAll filters children hp hs hchildren
      -- the conjunction is the only part of a `$nor`, and has parts itself
      refine .combination (by decide) (List.cons_ne_nil _ _) (List.forall_mem_singleton.mpr ?_)
      exact .combination (by decide) (hparts hne) hall
  | .or filters, d, hp, hs, h => by
      obtain ⟨children, hchildren, ⟨⟩⟩ := bind_eq_ok.mp h
      obtain ⟨⟨hne, -⟩, hs⟩ := soundNodes_cons.mp hs
      obtain ⟨hparts, hall⟩ := isQuery_renderAll filters children hp hs hchildren
      exact .combination (by decide) (hparts hne) hall
  | .nor filters, d, hp, hs, h => by
      obtain ⟨children, hchildren, ⟨⟩⟩ := bind_eq_ok.mp h
      obtain ⟨hne, hs⟩ := soundNodes_cons.mp hs
      obtain ⟨hparts, hall⟩ := isQuery_renderAll filters children hp hs hchildren
      exact .combination (by decide) (hparts hne) hall
  | .not filter, d, hp, hs, h => isQuery_render filter d hp (soundNodes_cons.mp hs).2 h
  | .everything, d, hp, hs, h => by
      cases h
      exact .combination (by decide) (by simp) (List.forall_mem_singleton.mpr .everything)
  | .nothing, d, hp, hs, h => by
      cases h
      exact .everything

theorem isCondition_itemDocument : ∀ (f : Filter) (operators : Fields), Unreserved f.paths →
    SoundNodes f.nodes → f.itemDocument = .ok operators → IsCondition operators
  | .test path t, operators, hp, hs, h => by
      cases h
      exact isCondition_document (soundNodes_cons.mp hs).1
  | .elemMatch path body, operators, hp, hs, h => by
      rw [Filter.itemDocument_elemMatch] at h
      obtain ⟨document, hdocument, rfl⟩ := map_eq_ok.mp h
      have hp := (unreserved_cons.mp hp).2
      have hs := (soundNodes_cons.mp hs).2
      exact isCondition_elemMatchFields (isOperation_elementDocument
        (fun d hd => isQuery_render body d hp hs hd)
        (fun operators ho => isCondition_itemDocument body operators hp hs ho) hdocument)
  | .not (.test path t), operators, hp, hs, h => by
      cases h
      exact isCondition_negated (soundNodes_cons.mp (soundNodes_cons.mp hs).2).1
  | .not (.elemMatch path body), operators, hp, hs, h => by
      rw [Filter.itemDocument_not_elemMatch] at h
      obtain ⟨document, hdocument, rfl⟩ := map_eq_ok.mp h
      have hp := (unreserved_cons.mp hp).2
      have hs := (soundNodes_cons.mp (soundNodes_cons.mp hs).2).2
      exact isCondition_negated_elemMatch (isOperation_elementDocument
        (fun d hd => isQuery_render body d hp hs hd)
        (fun operators ho => isCondition_itemDocument body operators hp hs ho) hdocument)
  | .and filters, operators, hp, hs, h => by
      obtain ⟨documents, hdocuments, hperm, hnodup⟩ :=
        Filter.perm_of_itemOperations (Filter.itemDocument_and.mp h)
      obtain ⟨⟨hne, -⟩, hs⟩ := soundNodes_cons.mp hs
      -- a conjunction without parts would be joined to an empty document
      have hparts : documents ≠ [] := by
        rintro rfl
        exact hne (List.forall₂_nil_right_iff.mp hdocuments)
      exact isCondition_flatten hparts (isCondition_documents filters documents hp hs hdocuments)
        hperm hnodup
  | .not (.and _), _, _, _, h | .not (.or _), _, _, _, h | .not (.nor _), _, _, _, h
  | .not (.not _), _, _, _, h | .not .everything, _, _, _, h | .not .nothing, _, _, _, h
  | .or _, _, _, _, h | .nor _, _, _, _, h | .everything, _, _, _, h | .nothing, _, _, _, h => by
      cases h

theorem isCondition_documents : ∀ (fs : List Filter) (documents : List Fields),
    Unreserved (Filter.allPaths fs) → SoundNodes (Filter.allNodes fs) →
    Filter.Documents fs documents → ∀ document ∈ documents, IsCondition document
  | [], documents, hp, hs, h => by
      cases h
      exact List.forall_mem_nil _
  | f :: fs, documents, hp, hs, h => by
      cases h with
      | @cons _ document _ rest hdocument hrest =>
          obtain ⟨hpf, hpfs⟩ := unreserved_append.mp hp
          obtain ⟨hsf, hsfs⟩ := soundNodes_append.mp hs
          exact List.forall_mem_cons.mpr ⟨isCondition_itemDocument f document hpf hsf hdocument.2,
            isCondition_documents fs rest hpfs hsfs hrest⟩

end

/-- What a filter out of the checked constructors renders to is a query
document, as long as no path could be taken for an operator. -/
theorem isQuery_of_render {f : Filter} {d : Json} (hbuilt : f.Built)
    (hpaths : Unreserved f.paths) (h : f.render = .ok d) : IsQuery d :=
  isQuery_render f d hpaths hbuilt.sound h

theorem isQuery_of_render_between :
    let body : Filter := .and [.test .root (.compare .lt (.int 9)),
      .not (.test .root (.eq (.int 3))), .test .root (.regex "x" "i")]
    let f : Filter := .not (.or [.elemMatch ⟨["a"]⟩ body, .not (.test ⟨["b", "c"]⟩ (.mod 4 1))])
    let d : Json := .single "$nor" (.array [
      .single "a" (.single "$elemMatch" (.object [("$lt", .int 9), ("$ne", .int 3),
        ("$options", .string "i"), ("$regex", .string "x")])),
      .single "b.c" (.single "$not" (.single "$mod" (.array [.int 4, .int 1])))])
    f.Built ∧ Unreserved f.paths ∧ f.render = .ok d ∧ IsQuery d := by
  intro body f d
  have hbody : body.Built := by
    refine @Filter.Built.andOf [.test .root (.compare .lt (.int 9)),
      .not (.test .root (.eq (.int 3))), .test .root (.regex "x" "i")] _ ?_ rfl
    have hnot : (Filter.not (.test .root (.eq (.int 3)))).Built :=
      .notOf (.compare .root .eq (.int 3)) rfl
    simpa using And.intro (.compare ..) (And.intro hnot (.regex ..))
  have hmod : (Filter.not (.test ⟨["b", "c"]⟩ (.mod 4 1))).Built := by
    have hdivisor : (4 : Int) ≠ 0 := by decide
    exact .notOf (.modOf (Filter.modOf_of_ne_zero ⟨["b", "c"]⟩ 1 hdivisor)) rfl
  have hbuilt : f.Built := by
    refine .notOf (@Filter.Built.orOf [.elemMatch ⟨["a"]⟩ body,
      .not (.test ⟨["b", "c"]⟩ (.mod 4 1))] _ ?_ rfl) rfl
    simpa using And.intro (.elemMatchOf hbody rfl) hmod
  have hpaths : Unreserved f.paths := by
    have hlist : f.paths = [⟨["a"]⟩, .root, .root, .root, ⟨["b", "c"]⟩] := rfl
    rw [hlist]
    unfold Unreserved
    decide
  exact ⟨hbuilt, hpaths, rfl, isQuery_of_render hbuilt hpaths rfl⟩

end Query

end QueryFilter
