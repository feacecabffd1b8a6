import QueryFilter.Filter.Render

/-!
Where operations on an item stand in a filter. In a well nested filter every
body of `elemMatch` has been checked, and such a filter renders unless it asks
something of the document itself.
-/

namespace QueryFilter

namespace Filter

mutual

/-- Every body of `elemMatch` has passed the check for such bodies. -/
def WellNested : Filter → Prop
  | .test .. => True
  | .elemMatch _ body => body.isElemMatchBody = .ok true ∧ WellNested body
  | .and filters => AllWellNested filters
  | .or filters => AllWellNested filters
  | .nor filters => AllWellNested filters
  | .not filter => WellNested filter
  | .everything => True
  | .nothing => True

def AllWellNested : List Filter → Prop
  | [] => True
  | f :: fs => WellNested f ∧ AllWellNested fs

end

theorem allWellNested_iff (filters : List Filter) :
    AllWellNested filters ↔ ∀ f ∈ filters, f.WellNested := by
  induction filters with
  | nil => simp [AllWellNested]
  | cons f fs ih => simp [AllWellNested, ih]

theorem anyMentionsItem_eq (filters : List Filter) :
    mentionsItem.anyMentionsItem filters = filters.any mentionsItem := by
  induction filters with
  | nil => rfl
  | cons f fs ih => simp [mentionsItem.anyMentionsItem, ih]

/-! Bodies of `elemMatch`. -/

theorem itemDocument_and {filters : List Filter} {operators : Fields} :
    (and filters).itemDocument = .ok operators ↔
      itemOperations filters [] = .ok (some operators) := by
  rw [itemDocument]
  constructor
  · intro h
    obtain ⟨joined, hjoined, h⟩ := bind_eq_ok.mp h
    cases joined with
    | none => cases h
    | some merged =>
        cases h
        exact hjoined
  · intro h
    rw [h]
    rfl

theorem isElemMatchBody_of_fields {body : Filter} (h : body.mentionsItem = false) :
    body.isElemMatchBody = .ok true := by
  simp only [isElemMatchBody, h, Bool.not_false, Bool.true_or, if_true]
  rfl

theorem isElemMatchBody_of_isItemOperation {body : Filter} (h : body.isItemOperation = true) :
    body.isElemMatchBody = .ok true := by
  simp only [isElemMatchBody, h, Bool.or_true, if_true]
  rfl

/-- Of the bodies that are no operation on the item and yet mention it, the
conjunctions whose operations can be joined pass. -/
theorem isElemMatchBody_eq_true {body : Filter} (hm : body.mentionsItem = true)
    (hop : body.isItemOperation = false) :
    body.isElemMatchBody = .ok true ↔
      ∃ filters merged, body = .and filters ∧ itemOperations filters [] = .ok (some merged) := by
  simp only [isElemMatchBody, hm, hop, Bool.not_true, Bool.or_self, Bool.false_eq_true, if_false]
  constructor
  · intro h
    split at h
    · rename_i filters
      obtain ⟨operators, hoperators, hsome⟩ := bind_eq_ok.mp h
      obtain ⟨merged, rfl⟩ := Option.isSome_iff_exists.mp (Except.ok.inj hsome)
      exact ⟨filters, merged, rfl, hoperators⟩
    · cases h
  · rintro ⟨filters, merged, rfl, hmerged⟩
    dsimp only
    rw [hmerged]
    rfl

/-! Rendering of well nested filters. -/

theorem atPath_of_not_isRoot {path : Path} (operation : Json) (h : path.isRoot = false) :
    atPath path operation = .ok (.single path.text operation) :=
  atPath_eq_ok_iff.mpr ⟨h, rfl⟩

/-- A checked body of `elemMatch` renders if it does so as a query and as an
operation on the item. -/
theorem elementDocument_of_isElemMatchBody {body : Filter}
    (hrender : body.mentionsItem = false → ∃ d, body.render = .ok d)
    (hitem : body.isItemOperation = true → ∃ operators, body.itemDocument = .ok operators)
    (h : body.isElemMatchBody = .ok true) : ∃ d, body.elementDocument = .ok d := by
  cases hm : body.mentionsItem with
  | false =>
      obtain ⟨d, hd⟩ := hrender hm
      exact ⟨d, by simp [elementDocument, hm, hd]⟩
  | true =>
      -- operators about the item: one operation, or a conjunction that was joined
      suffices hdoc : ∃ operators, body.itemDocument = .ok operators by
        obtain ⟨operators, ho⟩ := hdoc
        exact ⟨.object operators, by simp [elementDocument, hm, ho, Functor.map, Except.map]⟩
      cases hop : body.isItemOperation with
      | true => exact hitem hop
      | false =>
          obtain ⟨filters, merged, rfl, hmerged⟩ := (isElemMatchBody_eq_true hm hop).mp h
          exact ⟨merged, itemDocument_and.mpr hmerged⟩

mutual

theorem renders_of_wellNested : ∀ f : Filter, f.WellNested → f.mentionsItem = false →
    (∃ d, f.render = .ok d) ∧ ∃ d, f.renderNegation = .ok d
  | .test path t, _, hm =>
      ⟨⟨_, atPath_of_not_isRoot _ hm⟩, ⟨_, atPath_of_not_isRoot _ hm⟩⟩
  | .elemMatch path body, h, hm => by
      obtain ⟨d, hd⟩ := elementDocument_of_isElemMatchBody
        (fun hb => (renders_of_wellNested body h.2 hb).1)
        (fun hb => itemDocument_of_wellNested body h.2 hb) h.1
      rw [render_elemMatch, renderNegation_elemMatch, hd]
      exact ⟨⟨_, atPath_of_not_isRoot _ hm⟩, ⟨_, atPath_of_not_isRoot _ hm⟩⟩
  | .and filters, h, hm => by
      obtain ⟨ds, hds⟩ := renderAll_of_wellNested filters h hm
      simp only [render, renderNegation, hds]
      exact ⟨⟨_, rfl⟩, ⟨_, rfl⟩⟩
  | .or filters, h, hm => by
      obtain ⟨ds, hds⟩ := renderAll_of_wellNested filters h hm
      simp only [render, renderNegation, hds]
      exact ⟨⟨_, rfl⟩, ⟨_, rfl⟩⟩
  | .nor filters, h, hm => by
      obtain ⟨ds, hds⟩ := renderAll_of_wellNested filters h hm
      simp only [render, renderNegation, hds]
      exact ⟨⟨_, rfl⟩, ⟨_, rfl⟩⟩
  | .not filter, h, hm => (renders_of_wellNested filter h hm).symm
  | .everything, _, _ => ⟨⟨_, rfl⟩, ⟨_, rfl⟩⟩
  | .nothing, _, _ => ⟨⟨_, rfl⟩, ⟨_, rfl⟩⟩

theorem renderAll_of_wellNested : ∀ fs : List Filter, AllWellNested fs →
    mentionsItem.anyMentionsItem fs = false → ∃ ds, renderAll fs = .ok ds
  | [], _, _ => ⟨[], rfl⟩
  | f :: fs, h, hm => by
      rw [mentionsItem.anyMentionsItem, Bool.or_eq_false_iff] at hm
      obtain ⟨d, hd⟩ := (renders_of_wellNested f h.1 hm.1).1
      obtain ⟨ds, hds⟩ := renderAll_of_wellNested fs h.2 hm.2
      exact ⟨d :: ds, by rw [renderAll, hd, hds]; rfl⟩

theorem itemDocument_of_wellNested : ∀ f : Filter, f.WellNested → f.isItemOperation = true →
    ∃ operators, f.itemDocument = .ok operators
  | .test path t, _, _ => ⟨_, rfl⟩
  | .not (.test path t), _, _ => ⟨_, rfl⟩
  | .elemMatch path body, h, _ => by
      obtain ⟨d, hd⟩ := elementDocument_of_isElemMatchBody
        (fun hb => (renders_of_wellNested body h.2 hb).1)
        (fun hb => itemDocument_of_wellNested body h.2 hb) h.1
      exact ⟨_, by rw [itemDocument_elemMatch, hd]; rfl⟩
  | .not (.elemMatch path body), h, _ => by
      obtain ⟨d, hd⟩ := elementDocument_of_isElemMatchBody
        (fun hb => (renders_of_wellNested body h.2 hb).1)
        (fun hb => itemDocument_of_wellNested body h.2 hb) h.1
      exact ⟨_, by rw [itemDocument_not_elemMatch, hd]; rfl⟩

end

theorem itemOperations_of_wellNested (fs : List Filter) (joined : Fields)
    (h : AllWellNested fs) : ∃ operators, itemOperations fs joined = .ok operators := by
  induction fs generalizing joined with
  | nil => exact ⟨_, rfl⟩
  | cons f fs ih =>
      rw [itemOperations]
      split
      · rename_i hitem
        obtain ⟨document, hdocument⟩ := itemDocument_of_wellNested f h.1 hitem
        cases hjoin : joinFields joined document with
        | none => exact ⟨none, by simp only [hdocument, bind, Except.bind, hjoin]; rfl⟩
        | some merged =>
            obtain ⟨operators, ho⟩ := ih merged h.2
            exact ⟨operators, by simp only [hdocument, bind, Except.bind, hjoin, ho]⟩
      · exact ⟨none, rfl⟩

/-- The check for bodies of `elemMatch` renders operators, but not in vain. -/
theorem isElemMatchBody_of_wellNested (body : Filter) (h : body.WellNested) :
    ∃ fits, body.isElemMatchBody = .ok fits := by
  unfold isElemMatchBody
  split
  · exact ⟨true, rfl⟩
  · split
    · obtain ⟨operators, ho⟩ := itemOperations_of_wellNested _ [] h
      exact ⟨operators.isSome, by rw [ho]; rfl⟩
    · exact ⟨false, rfl⟩

end Filter

end QueryFilter
