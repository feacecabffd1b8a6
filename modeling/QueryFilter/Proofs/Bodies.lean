import QueryFilter.Proofs.Assembly
import QueryFilter.Proofs.Placement
import QueryFilter.Proofs.Reading

/-!
Which filters render. Operations on an item belong into bodies of `elemMatch`,
and a body holds either none, or one, or several that an operator document has
room for. A filter that keeps to this renders, and no other does.
-/

namespace QueryFilter

namespace Test

/-- The operators in the document of a test. -/
def operators : Test → List String
  | .presence _ => ["$exists"]
  | .compare how _ => [how.operator]
  | .oneOf _ => ["$in"]
  | .noneOf _ => ["$nin"]
  | .regex _ options => if options = "" then ["$regex"] else ["$options", "$regex"]
  | .size _ => ["$size"]
  | .mod .. => ["$mod"]

/-- The operators in the document of the opposite test. -/
def negatedOperators : Test → List String
  | .presence _ => ["$exists"]
  | .compare .eq _ => ["$ne"]
  | .compare .ne _ => ["$eq"]
  | .oneOf _ => ["$nin"]
  | .noneOf _ => ["$in"]
  | _ => ["$not"]

theorem map_fst_document (t : Test) : t.document.map (·.1) = t.operators := by
  cases t with
  | regex pattern options => by_cases h : options = "" <;> simp [document, operators, h]
  | _ => rfl

theorem map_fst_negated (t : Test) : t.negated.map (·.1) = t.negatedOperators := by
  cases t with
  | compare how value => cases how <;> rfl
  | _ => rfl

end Test

namespace Filter

/-! ### Placement -/

mutual

/-- The paths of the operations outside bodies of `elemMatch`. -/
def surfacePaths : Filter → List Path
  | .test path _ => [path]
  | .elemMatch path _ => [path]
  | .and filters => allSurfacePaths filters
  | .or filters => allSurfacePaths filters
  | .nor filters => allSurfacePaths filters
  | .not filter => filter.surfacePaths
  | .everything => []
  | .nothing => []

def allSurfacePaths : List Filter → List Path
  | [] => []
  | f :: fs => f.surfacePaths ++ allSurfacePaths fs

end

/-- An operation on the item, or the negation of one, with the operators of
its document. -/
inductive OnItem : Filter → List String → Prop where
  | test (t : Test) : OnItem (.test .root t) t.operators
  | elemMatch (body : Filter) : OnItem (.elemMatch .root body) ["$elemMatch"]
  | notTest (t : Test) : OnItem (.not (.test .root t)) t.negatedOperators
  | notElemMatch (body : Filter) : OnItem (.not (.elemMatch .root body)) ["$not"]

/-- A body of `elemMatch` that says nothing of the item itself, or one thing,
or several things with different operators. -/
inductive Fits : Filter → Prop where
  | fields {body : Filter} : Path.root ∉ body.surfacePaths → Fits body
  | single {body : Filter} {operators : List String} : body.OnItem operators → Fits body
  | joined {filters : List Filter} {operators : List (List String)} :
      List.Forall₂ OnItem filters operators → operators.flatten.Nodup → Fits (.and filters)

/-- Every body of `elemMatch` in a filter fits. -/
def BodiesFit (f : Filter) : Prop := ∀ path body, .elemMatch path body ∈ f.nodes → body.Fits

/-- Operations on an item are in bodies of `elemMatch` only, and these fit. -/
structure WellPlaced (f : Filter) : Prop where
  surface : Path.root ∉ f.surfacePaths
  bodies : f.BodiesFit

theorem isRoot_eq_true {path : Path} : path.isRoot = true ↔ Path.root = path := by
  rw [Path.isRoot_iff, eq_comm]

mutual

theorem mentionsItem_iff : ∀ f : Filter, f.mentionsItem = true ↔ Path.root ∈ f.surfacePaths
  | .test .. | .elemMatch .. => isRoot_eq_true.trans List.mem_singleton.symm
  | .and filters | .or filters | .nor filters => anyMentionsItem_iff filters
  | .not filter => mentionsItem_iff filter
  | .everything | .nothing => by simp [mentionsItem, surfacePaths]

theorem anyMentionsItem_iff : ∀ fs : List Filter,
    mentionsItem.anyMentionsItem fs = true ↔ Path.root ∈ allSurfacePaths fs
  | [] => by simp [mentionsItem.anyMentionsItem, allSurfacePaths]
  | f :: fs => by
      rw [mentionsItem.anyMentionsItem, allSurfacePaths, Bool.or_eq_true, List.mem_append,
        mentionsItem_iff f, anyMentionsItem_iff fs]

end

theorem mentionsItem_eq_false_iff (f : Filter) :
    f.mentionsItem = false ↔ Path.root ∉ f.surfacePaths := by
  rw [← mentionsItem_iff, Bool.not_eq_true]

theorem isItemOperation_iff (f : Filter) :
    f.isItemOperation = true ↔ ∃ operators, f.OnItem operators := by
  constructor
  · intro h
    cases f with
    | test path t =>
        obtain rfl := isRoot_eq_true.mp h
        exact ⟨_, .test t⟩
    | elemMatch path body =>
        obtain rfl := isRoot_eq_true.mp h
        exact ⟨_, .elemMatch body⟩
    | not filter =>
        cases filter with
        | test path t =>
            obtain rfl := isRoot_eq_true.mp h
            exact ⟨_, .notTest t⟩
        | elemMatch path body =>
            obtain rfl := isRoot_eq_true.mp h
            exact ⟨_, .notElemMatch body⟩
        | _ => cases h
    | _ => cases h
  · rintro ⟨_, _ | _ | _ | _⟩ <;> rfl

/-- The document of an operation on the item has its operators. -/
theorem OnItem.map_fst {f : Filter} {operators : List String} {document : Fields}
    (h : f.OnItem operators) (hdocument : f.itemDocument = .ok document) :
    document.map (·.1) = operators := by
  cases h with
  | test t =>
      cases hdocument
      exact t.map_fst_document
  | notTest t =>
      cases hdocument
      exact t.map_fst_negated
  | elemMatch body =>
      rw [itemDocument_elemMatch] at hdocument
      obtain ⟨d, -, rfl⟩ := map_eq_ok.mp hdocument
      rfl
  | notElemMatch body =>
      rw [itemDocument_not_elemMatch] at hdocument
      obtain ⟨d, -, rfl⟩ := map_eq_ok.mp hdocument
      rfl

/-! ### Joined operations -/

/-- The documents of operations on the item. -/
abbrev Documents (filters : List Filter) (documents : List Fields) : Prop :=
  List.Forall₂ (fun f document => f.isItemOperation = true ∧ f.itemDocument = .ok document)
    filters documents

theorem joinFields_of_nodup {left right : Fields} (h : ((left ++ right).map (·.1)).Nodup) :
    ∃ merged, joinFields left right = some merged := by
  refine ⟨_, if_neg fun hany => ?_⟩
  obtain ⟨f, hf, hsome⟩ := List.any_eq_true.mp hany
  rw [List.map_append, List.nodup_append] at h
  have hnew : left.get? f.1 = none := Fields.get?_eq_none fun g hg =>
    h.2.2 g.1 (List.mem_map_of_mem hg) f.1 (List.mem_map_of_mem hf)
  rw [hnew] at hsome
  cases hsome

theorem nodup_joinFields {left right merged : Fields} (h : joinFields left right = some merged)
    (hleft : (left.map (·.1)).Nodup) (hright : (right.map (·.1)).Nodup) :
    (merged.map (·.1)).Nodup := by
  have hnew := (Query.joinFields_eq_some h).1
  rw [((Query.joinFields_perm h hright).map _).nodup_iff, List.map_append, List.nodup_append]
  refine ⟨hleft, hright, fun a ha b hb hab => ?_⟩
  obtain ⟨f, hf, rfl⟩ := List.mem_map.mp ha
  obtain ⟨g, hg, rfl⟩ := List.mem_map.mp hb
  exact Fields.get?_ne_none_of_mem hf (hab ▸ hnew g hg)

/-- The union grows by one document at a time; none shares an operator with
what is joined already. -/
theorem perm_append_of_itemOperations {fs : List Filter} {joined merged : Fields}
    (hjoined : (joined.map (·.1)).Nodup) (h : itemOperations fs joined = .ok (some merged)) :
    ∃ documents, Documents fs documents ∧ merged.Perm (joined ++ documents.flatten) ∧
      (merged.map (·.1)).Nodup := by
  induction fs generalizing joined with
  | nil =>
      cases h
      exact ⟨[], .nil, by simp, hjoined⟩
  | cons f fs ih =>
      rw [itemOperations] at h
      split at h
      · rename_i hitem
        obtain ⟨document, hdocument, h⟩ := bind_eq_ok.mp h
        obtain ⟨hdistinct, -⟩ := Query.joinable_itemDocument hitem hdocument
        split at h
        · rename_i wider hjoin
          have hperm := Query.joinFields_perm hjoin hdistinct
          obtain ⟨documents, hdocuments, hmerged, hnodup⟩ :=
            ih (nodup_joinFields hjoin hjoined hdistinct) h
          refine ⟨document :: documents, .cons ⟨hitem, hdocument⟩ hdocuments, ?_, hnodup⟩
          rw [List.flatten_cons, ← List.append_assoc]
          exact hmerged.trans (hperm.append_right _)
        · cases h
      · cases h

/-- Joining loses no operator and overwrites none. -/
theorem perm_of_itemOperations {fs : List Filter} {merged : Fields}
    (h : itemOperations fs [] = .ok (some merged)) :
    ∃ documents, Documents fs documents ∧ merged.Perm documents.flatten ∧
      (merged.map (·.1)).Nodup := by
  have hempty : (([] : Fields).map (·.1)).Nodup := List.nodup_nil
  simpa using perm_append_of_itemOperations hempty h

theorem itemOperations_of_nodup {fs : List Filter} {documents : List Fields} {joined : Fields}
    (h : Documents fs documents) (hnodup : ((joined ++ documents.flatten).map (·.1)).Nodup) :
    ∃ merged, itemOperations fs joined = .ok (some merged) := by
  induction h generalizing joined with
  | nil => exact ⟨joined, rfl⟩
  | @cons f document fs documents hf _ ih =>
      obtain ⟨hitem, hdocument⟩ := hf
      rw [List.flatten_cons, ← List.append_assoc] at hnodup
      have hleft : ((joined ++ document).map (·.1)).Nodup := by
        rw [List.map_append] at hnodup
        exact (List.nodup_append.mp hnodup).1
      -- the next document is joined, and the rest still has other operators
      obtain ⟨wider, hjoin⟩ := joinFields_of_nodup hleft
      have hperm := Query.joinFields_perm hjoin (Query.joinable_itemDocument hitem hdocument).1
      rw [itemOperations, if_pos hitem, hdocument, ok_bind, hjoin]
      refine ih ?_
      rwa [((hperm.append_right _).map _).nodup_iff]

theorem map_fst_flatten {filters : List Filter} {operators : List (List String)}
    {documents : List Fields} (h : List.Forall₂ OnItem filters operators)
    (hdocuments : Documents filters documents) :
    documents.flatten.map (·.1) = operators.flatten := by
  induction h generalizing documents with
  | nil =>
      cases hdocuments
      rfl
  | cons hf _ ih =>
      cases hdocuments with
      | cons hdocument hdocuments =>
          rw [List.flatten_cons, List.map_append, hf.map_fst hdocument.2, ih hdocuments,
            List.flatten_cons]

theorem exists_onItem {filters : List Filter} {documents : List Fields}
    (h : Documents filters documents) : ∃ operators, List.Forall₂ OnItem filters operators := by
  induction h with
  | nil => exact ⟨[], .nil⟩
  | cons hf _ ih =>
      obtain ⟨names, hnames⟩ := (isItemOperation_iff _).mp hf.1
      obtain ⟨operators, hoperators⟩ := ih
      exact ⟨names :: operators, .cons hnames hoperators⟩

theorem exists_documents {filters : List Filter} {operators : List (List String)}
    (hnested : AllWellNested filters) (h : List.Forall₂ OnItem filters operators) :
    ∃ documents, Documents filters documents := by
  induction h with
  | nil => exact ⟨[], .nil⟩
  | cons hf _ ih =>
      have hitem := (isItemOperation_iff _).mpr ⟨_, hf⟩
      obtain ⟨document, hdocument⟩ := itemDocument_of_wellNested _ hnested.1 hitem
      obtain ⟨documents, hdocuments⟩ := ih hnested.2
      exact ⟨document :: documents, .cons ⟨hitem, hdocument⟩ hdocuments⟩

/-- The operations of a conjunction can be joined if their operators differ. -/
theorem itemOperations_iff {filters : List Filter} (hnested : AllWellNested filters) :
    (∃ merged, itemOperations filters [] = .ok (some merged)) ↔
      ∃ operators, List.Forall₂ OnItem filters operators ∧ operators.flatten.Nodup := by
  constructor
  · rintro ⟨merged, h⟩
    obtain ⟨documents, hdocuments, hmerged, hnodup⟩ := perm_of_itemOperations h
    obtain ⟨operators, hoperators⟩ := exists_onItem hdocuments
    rw [(hmerged.map _).nodup_iff, map_fst_flatten hoperators hdocuments] at hnodup
    exact ⟨operators, hoperators, hnodup⟩
  · rintro ⟨operators, hoperators, hnodup⟩
    obtain ⟨documents, hdocuments⟩ := exists_documents hnested hoperators
    rw [← map_fst_flatten hoperators hdocuments] at hnodup
    exact itemOperations_of_nodup hdocuments hnodup

/-! ### Bodies -/

/-- What fits and says something of the item, but is no operation on it, joins
several. -/
theorem Fits.cases_joined {body : Filter} (h : body.Fits) (hm : body.mentionsItem = true)
    (hop : body.isItemOperation = false) :
    ∃ filters operators, body = .and filters ∧ List.Forall₂ OnItem filters operators ∧
      operators.flatten.Nodup := by
  cases h with
  | fields hsurface => exact absurd ((mentionsItem_iff body).mp hm) hsurface
  | single hitem =>
      rw [(isItemOperation_iff body).mpr ⟨_, hitem⟩] at hop
      cases hop
  | joined hitems hnodup => exact ⟨_, _, rfl, hitems, hnodup⟩

/-- The check for bodies accepts exactly those that fit. -/
theorem isElemMatchBody_iff {body : Filter} (hnested : body.WellNested) :
    body.isElemMatchBody = .ok true ↔ body.Fits := by
  cases hm : body.mentionsItem with
  | false =>
      have hsurface := (mentionsItem_eq_false_iff body).mp hm
      exact iff_of_true (isElemMatchBody_of_fields hm) (.fields hsurface)
  | true =>
      cases hop : body.isItemOperation with
      | true =>
          obtain ⟨operators, hoperators⟩ := (isItemOperation_iff body).mp hop
          exact iff_of_true (isElemMatchBody_of_isItemOperation hop) (.single hoperators)
      | false =>
          rw [isElemMatchBody_eq_true hm hop]
          constructor
          · rintro ⟨filters, merged, rfl, hmerged⟩
            obtain ⟨names, hnames, hnodup⟩ := (itemOperations_iff hnested).mp ⟨merged, hmerged⟩
            exact .joined hnames hnodup
          · intro h
            obtain ⟨filters, names, rfl, hnames, hnodup⟩ := h.cases_joined hm hop
            obtain ⟨merged, hmerged⟩ := (itemOperations_iff hnested).mpr ⟨names, hnames, hnodup⟩
            exact ⟨filters, merged, rfl, hmerged⟩

theorem bodiesFit_elemMatch {path : Path} {body : Filter} :
    (elemMatch path body).BodiesFit ↔ body.Fits ∧ body.BodiesFit := by
  constructor
  · intro h
    exact ⟨h path body List.mem_cons_self, fun p b hb => h p b (List.mem_cons_of_mem _ hb)⟩
  · rintro ⟨hfits, hinner⟩ p b hb
    rcases List.mem_cons.mp hb with heq | hb
    · cases heq
      exact hfits
    · exact hinner p b hb

theorem bodiesFit_of_parts {f : Filter} {filters : List Filter}
    (hnodes : f.nodes = f :: allNodes filters) (hf : ∀ path body, f ≠ .elemMatch path body) :
    f.BodiesFit ↔ ∀ g ∈ filters, g.BodiesFit := by
  unfold BodiesFit
  simp only [hnodes, List.mem_cons, mem_allNodes]
  constructor
  · intro h g hg path body hbody
    exact h path body (.inr ⟨g, hg, hbody⟩)
  · rintro h path body (heq | ⟨g, hg, hbody⟩)
    · exact absurd heq.symm (hf path body)
    · exact h g hg path body hbody

mutual

theorem wellNested_iff : ∀ f : Filter, f.WellNested ↔ f.BodiesFit
  | .test .. | .everything | .nothing => by simp [WellNested, BodiesFit, nodes]
  | .elemMatch path body => by
      rw [bodiesFit_elemMatch, ← wellNested_iff body]
      exact and_congr_left isElemMatchBody_iff
  | .and filters | .or filters | .nor filters => by
      rw [bodiesFit_of_parts rfl fun _ _ => Filter.noConfusion]
      exact allWellNested_iff_bodiesFit filters
  | .not filter => by
      have hnodes : (not filter).nodes = not filter :: allNodes [filter] := by
        simp [nodes, allNodes]
      rw [bodiesFit_of_parts hnodes fun _ _ => Filter.noConfusion, List.forall_mem_singleton]
      exact wellNested_iff filter

theorem allWellNested_iff_bodiesFit : ∀ fs : List Filter,
    AllWellNested fs ↔ ∀ f ∈ fs, f.BodiesFit
  | [] => by simp [AllWellNested]
  | f :: fs => by
      rw [AllWellNested, List.forall_mem_cons, wellNested_iff f, allWellNested_iff_bodiesFit fs]

end

/-! ### Rendering -/

/-- Operators for the body of `elemMatch` come from bodies that pass. -/
theorem isElemMatchBody_of_itemDocument {body : Filter} {operators : Fields}
    (hm : body.mentionsItem = true) (h : body.itemDocument = .ok operators) :
    body.isElemMatchBody = .ok true := by
  cases hop : body.isItemOperation with
  | true => exact isElemMatchBody_of_isItemOperation hop
  | false =>
      rw [isElemMatchBody_eq_true hm hop]
      cases body with
      | and filters => exact ⟨filters, operators, rfl, itemDocument_and.mp h⟩
      | test | elemMatch => cases hop.symm.trans hm
      | not filter =>
          cases filter with
          | test | elemMatch => cases hop.symm.trans hm
          | _ => cases h
      | _ => cases h

/-- What stands under `$elemMatch` comes from a body that is well nested and
passes the check. -/
theorem wellNested_of_elementDocument {body : Filter} {d : Json}
    (hrender : ∀ d, body.render = .ok d → body.WellNested ∧ body.mentionsItem = false)
    (hitem : ∀ operators, body.itemDocument = .ok operators → body.WellNested)
    (h : body.elementDocument = .ok d) : body.isElemMatchBody = .ok true ∧ body.WellNested := by
  unfold elementDocument at h
  split at h
  · rename_i hm
    obtain ⟨operators, hoperators, -⟩ := map_eq_ok.mp h
    exact ⟨isElemMatchBody_of_itemDocument hm hoperators, hitem operators hoperators⟩
  · rename_i hm
    exact ⟨isElemMatchBody_of_fields (by simpa using hm), (hrender d h).1⟩

/-! Rendering goes through its body with all four functions, so what each of
them says of the filter is shown in one induction. -/

mutual

theorem wellNested_of_render : ∀ (f : Filter) (d : Json), f.render = .ok d →
    f.WellNested ∧ f.mentionsItem = false
  | .test path t, d, h => ⟨trivial, (atPath_eq_ok_iff.mp h).1⟩
  | .elemMatch path body, d, h => by
      rw [render_elemMatch] at h
      obtain ⟨document, hdocument, h⟩ := bind_eq_ok.mp h
      exact ⟨wellNested_of_elementDocument (wellNested_of_render body)
        (wellNested_of_itemDocument body) hdocument, (atPath_eq_ok_iff.mp h).1⟩
  | .and filters, d, h | .or filters, d, h | .nor filters, d, h => by
      obtain ⟨children, hchildren, -⟩ := bind_eq_ok.mp h
      exact wellNested_of_renderAll filters children hchildren
  | .not filter, d, h => wellNested_of_renderNegation filter d h
  | .everything, d, h | .nothing, d, h => ⟨trivial, rfl⟩

theorem wellNested_of_renderAll : ∀ (fs : List Filter) (ds : List Json), renderAll fs = .ok ds →
    AllWellNested fs ∧ mentionsItem.anyMentionsItem fs = false
  | [], _, _ => ⟨trivial, rfl⟩
  | f :: fs, ds, h => by
      obtain ⟨d, hd, h⟩ := bind_eq_ok.mp h
      obtain ⟨rest, hrest, -⟩ := bind_eq_ok.mp h
      obtain ⟨hf, hfields⟩ := wellNested_of_render f d hd
      obtain ⟨hfs, hrestFields⟩ := wellNested_of_renderAll fs rest hrest
      refine ⟨⟨hf, hfs⟩, ?_⟩
      rw [mentionsItem.anyMentionsItem, hfields, hrestFields, Bool.or_self]

theorem wellNested_of_renderNegation : ∀ (f : Filter) (d : Json), f.renderNegation = .ok d →
    f.WellNested ∧ f.mentionsItem = false
  | .test path t, d, h => ⟨trivial, (atPath_eq_ok_iff.mp h).1⟩
  | .elemMatch path body, d, h => by
      rw [renderNegation_elemMatch] at h
      obtain ⟨document, hdocument, h⟩ := bind_eq_ok.mp h
      exact ⟨wellNested_of_elementDocument (wellNested_of_render body)
        (wellNested_of_itemDocument body) hdocument, (atPath_eq_ok_iff.mp h).1⟩
  | .and filters, d, h | .or filters, d, h | .nor filters, d, h => by
      obtain ⟨children, hchildren, -⟩ := bind_eq_ok.mp h
      exact wellNested_of_renderAll filters children hchildren
  | .not filter, d, h => wellNested_of_render filter d h
  | .everything, d, h | .nothing, d, h => ⟨trivial, rfl⟩

theorem wellNested_of_itemDocument : ∀ (f : Filter) (operators : Fields),
    f.itemDocument = .ok operators → f.WellNested
  | .test .., _, _ | .not (.test ..), _, _ => trivial
  | .elemMatch path body, operators, h => by
      rw [itemDocument_elemMatch] at h
      obtain ⟨document, hdocument, -⟩ := map_eq_ok.mp h
      exact wellNested_of_elementDocument (wellNested_of_render body)
        (wellNested_of_itemDocument body) hdocument
  | .not (.elemMatch path body), operators, h => by
      rw [itemDocument_not_elemMatch] at h
      obtain ⟨document, hdocument, -⟩ := map_eq_ok.mp h
      exact wellNested_of_elementDocument (wellNested_of_render body)
        (wellNested_of_itemDocument body) hdocument
  | .and filters, operators, h =>
      wellNested_of_itemOperations filters [] operators (itemDocument_and.mp h)
  | .not (.and _), _, h | .not (.or _), _, h | .not (.nor _), _, h | .not (.not _), _, h
  | .not .everything, _, h | .not .nothing, _, h => by cases h
  | .or _, _, h | .nor _, _, h | .everything, _, h | .nothing, _, h => by cases h

theorem wellNested_of_itemOperations : ∀ (fs : List Filter) (joined merged : Fields),
    itemOperations fs joined = .ok (some merged) → AllWellNested fs
  | [], _, _, _ => trivial
  | f :: fs, joined, merged, h => by
      rw [itemOperations] at h
      split at h
      · obtain ⟨document, hdocument, h⟩ := bind_eq_ok.mp h
        split at h
        · rename_i wider _
          exact ⟨wellNested_of_itemDocument f document hdocument,
            wellNested_of_itemOperations fs wider merged h⟩
        · cases h
      · cases h

end

theorem renders_iff (f : Filter) : (∃ d, f.render = .ok d) ↔ f.WellPlaced := by
  constructor
  · rintro ⟨d, hd⟩
    obtain ⟨hnested, hfields⟩ := wellNested_of_render f d hd
    exact ⟨(mentionsItem_eq_false_iff f).mp hfields, (wellNested_iff f).mp hnested⟩
  · intro h
    have hnested := (wellNested_iff f).mpr h.bodies
    exact (renders_of_wellNested f hnested ((mentionsItem_eq_false_iff f).mpr h.surface)).1

/-! ### Merged bodies -/

/-- A document with the operators of all the filters; each filter alone would
have its part of it. -/
def Merged (filters : List Filter) (document : Json) : Prop :=
  ∃ parts merged, document = .object merged ∧
    List.Forall₂ (fun f part => f.elementDocument = .ok (.object part)) filters parts ∧
    merged.Perm parts.flatten ∧ (merged.map (·.1)).Nodup

theorem elementDocument_of_isItemOperation {f : Filter} {document : Fields}
    (hitem : f.isItemOperation = true) (h : f.itemDocument = .ok document) :
    f.elementDocument = .ok (.object document) := by
  rw [elementDocument, if_pos (mentionsItem_of_isItemOperation hitem), h]
  rfl

theorem merged_of_elementDocument {filters : List Filter} {d : Json}
    (hm : Path.root ∈ (and filters).surfacePaths) (h : (and filters).elementDocument = .ok d) :
    Merged filters d := by
  rw [elementDocument, if_pos ((mentionsItem_iff _).mpr hm)] at h
  obtain ⟨merged, hmerged, rfl⟩ := map_eq_ok.mp h
  obtain ⟨parts, hparts, hperm, hnodup⟩ := perm_of_itemOperations (itemDocument_and.mp hmerged)
  exact ⟨parts, merged, rfl,
    hparts.imp fun _ _ hf => elementDocument_of_isItemOperation hf.1 hf.2, hperm, hnodup⟩

theorem elementDocument_of_render {path : Path} {body : Filter} {d : Json}
    (h : (elemMatch path body).render = .ok d) :
    ∃ document, body.elementDocument = .ok document ∧
      d = .single path.text (.single "$elemMatch" document) := by
  rw [render_elemMatch] at h
  obtain ⟨document, hdocument, h⟩ := bind_eq_ok.mp h
  exact ⟨document, hdocument, (atPath_eq_ok_iff.mp h).2⟩

/-- A filter renders exactly if its operations on items are well placed, the
check accepts exactly the bodies that fit, and a conjunction under `$elemMatch`
loses no operator. -/
theorem renders_iff_wellPlaced (f : Filter) :
    ((∃ d, f.render = .ok d) ↔ f.WellPlaced) ∧
    (¬ f.WellPlaced → ∃ e, f.render = .error e) ∧
    (f.BodiesFit → ∃ fits, f.isElemMatchBody = .ok fits ∧ (fits = true ↔ f.Fits)) ∧
    ∀ filters, f = .and filters → Path.root ∈ f.surfacePaths →
      (∀ d, f.elementDocument = .ok d → Merged filters d) ∧
      ∀ path d, (elemMatch path f).render = .ok d →
        ∃ merged, Merged filters merged ∧ d = .single path.text (.single "$elemMatch" merged) := by
  refine ⟨renders_iff f, fun hf => ?_, fun hf => ?_, ?_⟩
  · cases hrender : f.render with
    | ok d => exact absurd ((renders_iff f).mp ⟨d, hrender⟩) hf
    | error e => exact ⟨e, rfl⟩
  · have hnested := (wellNested_iff f).mpr hf
    obtain ⟨fits, hfits⟩ := isElemMatchBody_of_wellNested f hnested
    refine ⟨fits, hfits, ?_⟩
    rw [← isElemMatchBody_iff hnested, hfits, Except.ok.injEq]
  · rintro filters rfl hm
    refine ⟨fun d hd => merged_of_elementDocument hm hd, fun path d hd => ?_⟩
    obtain ⟨merged, hmerged, rfl⟩ := elementDocument_of_render hd
    exact ⟨merged, merged_of_elementDocument hm hmerged, rfl⟩

theorem renders_iff_wellPlaced_between :
    let below : Filter := .test .root (.compare .lt (.int 9))
    let parts := [below, .not (.test .root (.eq (.int 3))), .test .root (.regex "x" "i")]
    let merged : Json := .object [("$lt", .int 9), ("$ne", .int 3), ("$options", .string "i"),
      ("$regex", .string "x")]
    let f : Filter := .not (.elemMatch ⟨["a"]⟩ (.and parts))
    let twice : Filter := .elemMatch ⟨["a"]⟩ (.and [below, below])
    f.WellPlaced ∧ (Filter.and parts).Fits ∧ Merged parts merged ∧
      ¬ twice.WellPlaced ∧ twice.render = .error .mixedItemOperations := by
  intro below parts merged f twice
  have hf : f.WellPlaced := (renders_iff_wellPlaced f).1.mp ⟨_, rfl⟩
  have htwice : ¬ twice.WellPlaced := by
    rw [← (renders_iff_wellPlaced twice).1]
    rintro ⟨d, hd⟩
    cases hd
  have hparts : (Filter.and parts).BodiesFit := by
    intro path body hbody
    simp [parts, below, nodes, allNodes] at hbody
  obtain ⟨fits, hcheck, hfits⟩ := (renders_iff_wellPlaced (.and parts)).2.2.1 hparts
  have hmerged : Merged parts merged :=
    ((renders_iff_wellPlaced (.and parts)).2.2.2 parts rfl (by simp [parts, below, surfacePaths,
      allSurfacePaths])).1 merged rfl
  refine ⟨hf, hfits.mp ?_, hmerged, htwice, rfl⟩
  cases hcheck
  rfl

end Filter

end QueryFilter
