import QueryFilter.Filter.Outline
import QueryFilter.Proofs.Bodies
import QueryFilter.Proofs.Junctions
import QueryFilter.Proofs.Meaning

/-!
Predicates of `Any` that are made of truth values only. A literal folds: the
call asks for any item or for nothing. What is put together of literals does
not, and the items of the array are asked for a body that asks nothing of them.
-/

namespace QueryFilter

/-- A boolean expression that is made of truth values, and its value. -/
inductive Expr.Decides : Expr → Bool → Prop where
  | const (b : Bool) (type : Ty) : Decides (.const (.bool b) type) b
  | not {operand : Expr} {b : Bool} : Decides operand b → Decides (.not operand) (!b)
  | and {left right : Expr} {b c : Bool} (type : Option Ty) :
      Decides left b → Decides right c → Decides (.binary .and left right type) (b && c)
  | or {left right : Expr} {b c : Bool} (type : Option Ty) :
      Decides left b → Decides right c → Decides (.binary .or left right type) (b || c)

namespace Filter

/-! ### Filters that ask nothing -/

mutual

theorem surfacePaths_subset : ∀ f : Filter, f.surfacePaths ⊆ f.paths
  | .test .. => List.Subset.refl _
  | .elemMatch path body => List.subset_append_left [path] body.paths
  | .and filters | .or filters | .nor filters => allSurfacePaths_subset filters
  | .not filter => surfacePaths_subset filter
  | .everything | .nothing => List.Subset.refl _

theorem allSurfacePaths_subset : ∀ filters : List Filter,
    allSurfacePaths filters ⊆ allPaths filters
  | [] => List.Subset.refl _
  | f :: fs => List.append_subset.mpr
      ⟨List.subset_append_of_subset_left _ (surfacePaths_subset f),
        List.subset_append_of_subset_right _ (allSurfacePaths_subset fs)⟩

end

/-- A filter that asks for no field and has one answer for all items. -/
structure Settled (f : Filter) (b : Bool) : Prop where
  fieldless : f.paths = []
  holds_eq : ∀ (Item : Type) (I : Interpretation Item) (x : Item), f.holds I x = b

theorem settled_ofBool (b : Bool) : Settled (if b then .everything else .nothing) b := by
  cases b with
  | true => exact ⟨rfl, fun _ _ _ => rfl⟩
  | false => exact ⟨rfl, fun _ _ _ => rfl⟩

variable {f g : Filter} {b c : Bool}

theorem Settled.not (h : f.Settled b) : (Filter.not f).Settled (!b) where
  fieldless := h.fieldless
  holds_eq Item I x := congrArg (!·) (h.holds_eq Item I x)

theorem Settled.allOf (hf : f.Settled b) (hg : g.Settled c) : (allOf [f, g]).Settled (b && c) where
  fieldless := by rw [paths_allOf_pair, hf.fieldless, hg.fieldless, List.append_nil]
  holds_eq Item I x := by rw [holds_allOf_pair, hf.holds_eq, hg.holds_eq]

theorem Settled.anyOf (hf : f.Settled b) (hg : g.Settled c) : (anyOf [f, g]).Settled (b || c) where
  fieldless := by rw [paths_anyOf_pair, hf.fieldless, hg.fieldless, List.append_nil]
  holds_eq Item I x := by rw [holds_anyOf_pair, hf.holds_eq, hg.holds_eq]

theorem Settled.isElemMatchBody (h : f.Settled b) : f.isElemMatchBody = .ok true := by
  refine isElemMatchBody_of_fields ((mentionsItem_eq_false_iff f).mpr fun hroot => ?_)
  have hpath := surfacePaths_subset f hroot
  rw [h.fieldless] at hpath
  cases hpath

end Filter

namespace Compile

/-! ### Bodies of truth values -/

/-- Truth values have a filter that asks nothing. It is one of the two constants
exactly for a literal. -/
theorem expression_of_decides {e : Expr} {b : Bool} (h : e.Decides b) (s : Scope)
    (hdepth : s.depth + e.height ≤ s.maxDepth) :
    ∃ f, expression s e = .ok f ∧ f.Settled b ∧
      (e.const?.isSome = true ∧ f = (if b then .everything else .nothing) ∨
        e.const? = none ∧ f ≠ .everything ∧ f ≠ .nothing) := by
  induction h with
  | const b type =>
      refine ⟨_, ?_, Filter.settled_ofBool b, .inl ⟨rfl, rfl⟩⟩
      simp only [Expr.height] at hdepth
      rw [expression, if_neg (by omega)]
      cases b <;> rfl
  | @not operand b _ ih =>
      have hheight : s.depth + (1 + operand.height) ≤ s.maxDepth := hdepth
      obtain ⟨f, hf, hsettled, -⟩ := ih (by omega)
      refine ⟨.not f, ?_, hsettled.not, .inr ⟨rfl, by simp, by simp⟩⟩
      rw [expression, if_neg (by omega), expression_descend hheight, hf]
      rfl
  | @and left right b c type _ _ ihl ihr =>
      have hheight : s.depth + (1 + max left.height right.height) ≤ s.maxDepth := hdepth
      obtain ⟨l, hl, hleft, -⟩ := ihl (by omega)
      obtain ⟨r, hr, hright, -⟩ := ihr (by omega)
      exact ⟨.allOf [l, r], expression_node_of_ok .and hdepth hl hr, hleft.allOf hright,
        .inr ⟨rfl, by simp [Filter.allOf], by simp [Filter.allOf]⟩⟩
  | @or left right b c type _ _ ihl ihr =>
      have hheight : s.depth + (1 + max left.height right.height) ≤ s.maxDepth := hdepth
      obtain ⟨l, hl, hleft, -⟩ := ihl (by omega)
      obtain ⟨r, hr, hright, -⟩ := ihr (by omega)
      exact ⟨.anyOf [l, r], expression_node_of_ok .or hdepth hl hr, hleft.anyOf hright,
        .inr ⟨rfl, by simp [Filter.anyOf], by simp [Filter.anyOf]⟩⟩

/-! ### Calls -/

section

variable {s : Scope} {c : Call} {source : Expr} {array : Field} {item : Encoder}
  (hfield : field s source = .ok array) (hitem : array.encoder = .array item)

include hfield hitem

theorem any_of_isAny (hmethod : c.method.isAny = true) {rest : List Expr}
    (hargs : c.args = source :: rest) (body : Scope → Compiled Filter) :
    any s c body = .ok (.nonEmptyArray array.path) := by
  unfold any
  rw [hmethod, hargs, Bool.true_or]
  show (field s source >>= _) = _
  rw [hfield, ok_bind, itemEncoder_of_array c hitem, ok_bind]
  rfl

theorem any_of_isAnyWhere (hmethod : c.method.isAnyWhere = true) {name : String} {type : Ty}
    {e : Expr} {rest : List Expr} (hargs : c.args = source :: .lambda name type e :: rest)
    (body : Scope → Compiled Filter) :
    any s c body = body (s.enter name item) >>= elemMatch c array.path := by
  unfold any
  rw [hmethod, (Method.shape?_of_isAnyWhere hmethod).1, hargs, Bool.or_true]
  show (field s source >>= _) = _
  rw [hfield, ok_bind, itemEncoder_of_array c hitem, ok_bind]
  rfl

end

/-- `Any` of a predicate that is made of truth values. A literal folds, to what
`Any` without a predicate has or to nothing. Every other predicate becomes a
body that asks nothing of the items, though its value is known. -/
theorem any_of_decides {s : Scope} {source : Expr} {array : Field} {item : Encoder}
    (hfield : field s source = .ok array) (hitem : array.encoder = .array item) {body : Expr}
    {b : Bool} (hbody : body.Decides b) (hdepth : s.depth + (1 + body.height) ≤ s.maxDepth)
    {any anyWhere : Method} (hany : any.isAny = true) (hwhere : anyWhere.isAnyWhere = true)
    (name : String) (type : Ty) :
    let items : Expr := .call none any [source]
    let itemsWhere : Expr := .call none anyWhere [source, .lambda name type body]
    expression s items = .ok (.nonEmptyArray array.path) ∧
    (body.const?.isSome = true →
      expression s itemsWhere = if b then expression s items else .ok .nothing) ∧
    (body.const? = none →
      ∃ f, expression s itemsWhere = .ok (.elemMatch array.path f) ∧ f.paths = [] ∧
        ∀ (Item : Type) (I : Interpretation Item) (x : Item), f.holds I x = b) := by
  intro items itemsWhere
  have hheight := body.height_pos
  have hfield' : field s.descend source = .ok array := by rwa [field_descend]
  have hplain : expression s items = .ok (.nonEmptyArray array.path) := by
    rw [expression, if_neg (by omega), call, Method.shape?_of_isAny hany]
    exact any_of_isAny hfield' hitem hany rfl _
  obtain ⟨f, hf, hsettled, hconstant⟩ := expression_of_decides hbody (s.descend.enter name item)
    (by simp only [Scope.enter, Scope.bind, Scope.descend]; omega)
  have hwhole : expression s itemsWhere
      = elemMatch ⟨none, anyWhere, [source, .lambda name type body]⟩ array.path f := by
    rw [expression, if_neg (by omega), call, (Method.shape?_of_isAnyWhere hwhere).2]
    dsimp only
    rw [any_of_isAnyWhere hfield' hitem hwhere rfl, hf, ok_bind]
  refine ⟨hplain, fun hliteral => ?_, fun hcomposite => ?_⟩
  · rcases hconstant with ⟨-, rfl⟩ | ⟨hcomposite, -⟩
    · rw [hwhole, hplain]
      cases b <;> rfl
    · rw [hcomposite] at hliteral
      cases hliteral
  · rcases hconstant with ⟨hliteral, -⟩ | ⟨-, heverything, hnothing⟩
    · rw [hcomposite] at hliteral
      cases hliteral
    · refine ⟨f, ?_, hsettled.fieldless, hsettled.holds_eq⟩
      rw [hwhole, elemMatch, hsettled.isElemMatchBody]
      · rfl
      · exact heverything
      · exact hnothing

/-- `Any` of rows of which a predicate holds. -/
def rowWhere (body : Expr) : Expr :=
  .call none (.anyWhere (.array .int32)) [rows, .lambda "r" (.array .int32) body]

/-- `r => true` folds, and `r => !false` asks every row for nothing. -/
theorem any_of_decides_rows :
    let s := Scope.document grid 64 "x" (.document "Grid" (some 0) 0) 0
    expression s (rowWhere (.const (.bool true) .boolean)) = expression s someRow ∧
      ∃ f, expression s (rowWhere (.not (.const (.bool false) .boolean)))
          = .ok (.elemMatch ⟨["rows"]⟩ f) ∧ f.paths = [] ∧
        f.holds Interpretation.ofStored (.array [.int 1]) = true := by
  intro s
  have hfield : field s rows = .ok ⟨⟨["rows"]⟩, .array (.array (.integer .int32 .int32))⟩ := rfl
  have hany : (Method.any (.array .int32)).isAny = true := by decide
  have hwhere : (Method.anyWhere (.array .int32)).isAnyWhere = true := by decide
  have hfold := any_of_decides hfield rfl (.const true .boolean) (by decide) hany hwhere "r"
    (.array .int32)
  have hkeep := any_of_decides hfield rfl (.not (.const false .boolean)) (by decide) hany hwhere "r"
    (.array .int32)
  obtain ⟨f, hf, hfieldless, hholds⟩ := hkeep.2.2 rfl
  exact ⟨hfold.2.1 rfl, f, hf, hfieldless, hholds _ _ _⟩

/-- A predicate whose value is true does not fold. Its body becomes the empty
query, which no item passes that is not a document, and the filter is not that
of `Any` without a predicate. -/
theorem any_not_folded :
    let s := Scope.document grid 64 "x" (.document "Grid" (some 0) 0) 0
    let body : Expr := .not (.const (.bool false) .boolean)
    body.Decides true ∧ (rowWhere body).Built ∧ ∃ f g,
      expression s someRow = .ok f ∧ expression s (rowWhere body) = .ok g ∧
      g.sameStructure f = false ∧
      g.render = .ok (.single "rows" (.single "$elemMatch" (.object []))) := by
  intro s body
  have hbody : body.Built := .notOf (Expr.built_const (.bool false) .boolean) rfl
  have hlambda : (Expr.lambda "r" (.array .int32) body).Built :=
    .lambdaOf hbody (rfl : Expr.lambdaOf (some (.param "r" (.array .int32))) _ = .ok _)
  have hcall : (rowWhere body).Built :=
    .callStatic (by simp [built_rows, hlambda])
      (rfl : Expr.callStatic (some (.anyWhere (.array .int32)))
        ([rows, .lambda "r" (.array .int32) body].map some) = .ok _)
  exact ⟨.not (.const false .boolean), hcall, _, _, rfl, rfl, by decide, rfl⟩

end Compile

end QueryFilter
