import QueryFilter.Proofs.Confinement

/-!
The limit of depth cuts off exactly what lies too deep. Connectives and nested
predicates count as levels. A compilation that keeps to the limit comes out as
under every larger one, and no other compilation has a filter.
-/

namespace QueryFilter

/-- The number of levels of connectives and nested predicates that lie in each
other. -/
def Expr.height : Expr → Nat
  | .binary .and left right _ => 1 + max left.height right.height
  | .binary .or left right _ => 1 + max left.height right.height
  | .not operand => 1 + operand.height
  | .call _ method (_ :: .lambda _ _ body :: _) =>
    if method.isAnyWhere then 1 + body.height else 1
  | _ => 1

theorem Expr.height_pos (e : Expr) : 0 < e.height := by
  unfold height
  split
  · omega
  · omega
  · omega
  · split <;> omega
  · omega

theorem Expr.height_call_eq_one {object : Option Expr} {method : Method} {args : List Expr}
    (h : ∀ source name type e rest, method.isAnyWhere = true →
      args ≠ source :: .lambda name type e :: rest) : (Expr.call object method args).height = 1 := by
  unfold height
  split
  · contradiction
  · contradiction
  · contradiction
  · rename_i hcall
    cases hcall
    exact if_neg fun hwhere => h _ _ _ _ _ hwhere rfl
  · rfl

/-- The same result, unless the limit is met before; that needs `deep`. -/
def Compiled.Cut {α : Type} (deep : Prop) (limit : Nat) (x x' : Compiled α) : Prop :=
  x = x' ∨ deep ∧ ∃ part, x = .error ⟨.tooDeep limit, some part⟩

namespace Compiled.Cut

variable {α β : Type} {deep deeper : Prop} {limit : Nat} {x x' : Compiled α}

theorem bind {f f' : α → Compiled β} (hx : x.Cut deep limit x')
    (hf : ∀ a, (f a).Cut deep limit (f' a)) : (x >>= f).Cut deep limit (x' >>= f') := by
  obtain rfl | ⟨hdeep, part, rfl⟩ := hx
  · cases x with
    | ok a => exact hf a
    | error e => exact .inl rfl
  · exact .inr ⟨hdeep, part, rfl⟩

theorem mono (hx : x.Cut deep limit x') (h : deep → deeper) : x.Cut deeper limit x' :=
  hx.imp_right fun ⟨hdeep, hpart⟩ => ⟨h hdeep, hpart⟩

end Compiled.Cut

namespace Compile

/-! ### What looks neither at the depth nor at the registry -/

section

variable (s : Scope) (registry : Registry) (d m : Nat)

theorem binary_elsewhere : binary (s.elsewhere registry d m) = binary s := by
  have hremainder : remainder (s.elsewhere registry d m) = remainder s := by
    unfold remainder
    rw [field_elsewhere]
  have hlength : arrayLength (s.elsewhere registry d m) = arrayLength s := by
    unfold arrayLength
    rw [field_elsewhere]
  have hcompare : compareWith (s.elsewhere registry d m) = compareWith s := by
    unfold compareWith
    rw [hremainder, hlength, field_elsewhere]
    rfl
  unfold binary comparison
  rw [hcompare]

theorem booleanField_elsewhere : booleanField (s.elsewhere registry d m) = booleanField s := by
  unfold booleanField
  rw [field_elsewhere]
  rfl

theorem containsKey_elsewhere : containsKey (s.elsewhere registry d m) = containsKey s := by
  unfold containsKey
  rw [field_elsewhere]
  rfl

theorem containsValue_elsewhere : containsValue (s.elsewhere registry d m) = containsValue s := by
  unfold containsValue
  rw [field_elsewhere]
  rfl

theorem stringField_elsewhere : stringField (s.elsewhere registry d m) = stringField s := by
  unfold stringField
  rw [field_elsewhere]

theorem stringMatch_elsewhere : stringMatch (s.elsewhere registry d m) = stringMatch s := by
  unfold stringMatch
  rw [stringField_elsewhere]

theorem stringEmptiness_elsewhere :
    stringEmptiness (s.elsewhere registry d m) = stringEmptiness s := by
  unfold stringEmptiness
  rw [stringField_elsewhere]

theorem contains_elsewhere : contains (s.elsewhere registry d m) = contains s := by
  unfold contains
  rw [field_elsewhere]
  rfl

theorem equals_elsewhere : equals (s.elsewhere registry d m) = equals s := by
  unfold equals
  rw [field_elsewhere]
  rfl

end

/-! ### Runs under two limits -/

variable {s : Scope}

/-- Calls come out the same as far as the predicates in them do. -/
theorem cut_call {deep : Prop} {limit : Nat} {registry : Registry} {d m : Nat} {c : Call}
    {body body' : Scope → Compiled Filter}
    (hbody : ∀ source name type e rest item, c.method.isAnyWhere = true →
      c.args = source :: .lambda name type e :: rest →
      (body (s.enter name item)).Cut deep limit
        (body' ((s.enter name item).elsewhere registry d m))) :
    (call s c body).Cut deep limit (call (s.elsewhere registry d m) c body') := by
  have hany : (any s c body).Cut deep limit (any (s.elsewhere registry d m) c body') := by
    unfold any
    rw [field_elsewhere]
    split
    · rename_i source rest hmethod hargs
      refine .bind (.inl rfl) fun f => .bind (.inl rfl) fun item => ?_
      split
      · exact .inl rfl
      · rename_i hnotAny
        have hwhere : c.method.isAnyWhere = true := by simpa [hnotAny] using hmethod
        split
        · exact (hbody _ _ _ _ _ item hwhere hargs).bind fun inner => .inl rfl
        · exact .inl rfl
    · exact .inl rfl
  unfold call
  rw [containsKey_elsewhere, containsValue_elsewhere, stringMatch_elsewhere,
    stringEmptiness_elsewhere, contains_elsewhere, equals_elsewhere]
  cases c.method.shape? with
  | none => exact .inl rfl
  | some shape =>
      cases shape with
      | any | anyWhere => exact hany
      | _ => exact .inl rfl

/-- Whether an expression lies too deep for the room in a scope, and the room is
not the same at depth `d` and under the limit `m`. -/
def Cramped (s : Scope) (d m : Nat) (e : Expr) : Prop :=
  ¬(d = s.depth ∧ m = s.maxDepth) ∧ s.maxDepth < s.depth + e.height

/-- A part that is one level deeper. -/
theorem Cut.descend {x x' : Compiled Filter} {e part : Expr} {d m : Nat}
    (hx : x.Cut (Cramped s.descend (d + 1) m part) s.descend.maxDepth x')
    (h : 1 + part.height ≤ e.height) : x.Cut (Cramped s d m e) s.maxDepth x' := by
  refine hx.mono fun hdeep => ?_
  simp only [Cramped, Scope.descend] at hdeep ⊢
  omega

theorem not_le_elsewhere {registry : Registry} {d m : Nat} (h : s.maxDepth + d ≤ m + s.depth)
    (hdepth : ¬s.maxDepth ≤ s.depth) :
    ¬(s.elsewhere registry d m).maxDepth ≤ (s.elsewhere registry d m).depth := by
  simp only [Scope.elsewhere]
  omega

/-- With no less room below the limit an expression compiles to the same,
whatever is registered, unless it lies too deep for the room there was. -/
theorem cut_expression (s : Scope) (e : Expr) (registry : Registry) (d m : Nat)
    (h : s.maxDepth + d ≤ m + s.depth) :
    (expression s e).Cut (Cramped s d m e) s.maxDepth
      (expression (s.elsewhere registry d m) e) := by
  -- the second run is opened beside the first, one level at a time
  fun_induction expression s e generalizing d m with
  | case1 e s hdepth =>
      by_cases hroom : d = s.depth ∧ m = s.maxDepth
      · obtain ⟨rfl, rfl⟩ := hroom
        rw [expression.eq_def]
        exact .inl (if_pos hdepth).symm
      · have hheight := e.height_pos
        exact .inr ⟨⟨hroom, by omega⟩, e, rfl⟩
  | case2 s hdepth left right type ihl ihr | case3 s hdepth left right type ihl ihr =>
      rw [expression, if_neg (not_le_elsewhere h hdepth)]
      have hl := ihl (d + 1) m (Nat.succ_le_succ h)
      have hr := ihr (d + 1) m (Nat.succ_le_succ h)
      refine (Cut.descend hl (by simp only [Expr.height]; omega)).bind fun l => ?_
      exact (Cut.descend hr (by simp only [Expr.height]; omega)).bind fun r => .inl rfl
  | case4 s hdepth op left right type hand hor =>
      rw [expression, if_neg (not_le_elsewhere h hdepth)]
      · rw [← binary_elsewhere s.descend registry (d + 1) m]
        exact .inl rfl
      · exact hand
      · exact hor
  | case5 s hdepth operand ih =>
      rw [expression, if_neg (not_le_elsewhere h hdepth)]
      have hoperand := ih (d + 1) m (Nat.succ_le_succ h)
      exact (Cut.descend hoperand (Nat.le_refl _)).bind fun f => .inl rfl
  | case6 s hdepth object method args ih =>
      rw [expression, if_neg (not_le_elsewhere h hdepth)]
      refine cut_call (d := d + 1) (m := m)
        fun source name type e rest item hwhere hargs => ?_
      obtain rfl : args = source :: .lambda name type e :: rest := hargs
      have hbody := ih (s.descend.enter name item) (d + 1) m (Nat.succ_le_succ h)
      exact Cut.descend hbody (by simp only [Expr.height, if_pos hwhere]; omega)
  | case7 s hdepth | case8 s hdepth | case9 s hdepth =>
      rw [expression, if_neg (not_le_elsewhere h hdepth)]
      rw [← booleanField_elsewhere s.descend registry (d + 1) m]
      exact .inl rfl
  | case10 s hdepth | case11 s hdepth =>
      rw [expression, if_neg (not_le_elsewhere h hdepth)]
      exact .inl rfl

/-- A call of a predicate succeeds only where the body of the predicate does. -/
theorem gives_call {c : Call} {source : Expr} {name : String} {type : Ty} {e : Expr}
    {rest : List Expr} (hwhere : c.method.isAnyWhere = true)
    (hargs : c.args = source :: .lambda name type e :: rest) {body : Scope → Compiled Filter}
    {holds : Prop} (hbody : ∀ item, (body (s.enter name item)).Gives fun _ => holds) :
    (call s c body).Gives fun _ => holds := by
  obtain ⟨hany, hshape⟩ := Method.shape?_of_isAnyWhere hwhere
  unfold call
  rw [hshape]
  dsimp only
  unfold any
  rw [hargs, hany, hwhere]
  refine (gives_true _).bind fun f _ => (gives_true _).bind fun item _ => ?_
  exact (hbody item).bind fun inner h => (gives_true _).mono fun _ _ => h

/-- Only what does not lie too deep has a filter. -/
theorem gives_height (s : Scope) (e : Expr) :
    (expression s e).Gives fun _ => s.depth + e.height ≤ s.maxDepth := by
  have hdescend {s : Scope} {n : Nat} (h : s.descend.depth + n ≤ s.descend.maxDepth) :
      s.depth + (1 + n) ≤ s.maxDepth := by
    simp only [Scope.descend] at h
    omega
  fun_induction expression s e with
  | case1 => exact gives_refuse _ _
  | case2 s hdepth left right type ihl ihr | case3 s hdepth left right type ihl ihr =>
      refine ihl.bind fun l hl => ihr.bind fun r hr => ?_
      have hleft := hdescend hl
      have hright := hdescend hr
      refine (gives_true _).mono fun _ _ => ?_
      simp only [Expr.height]
      omega
  | case5 s hdepth operand ih => exact ih.bind fun f hf => hdescend hf
  | case6 s hdepth object method args ih =>
      by_cases hnested : ∃ source name type e rest, method.isAnyWhere = true ∧
          args = source :: .lambda name type e :: rest
      · obtain ⟨source, name, type, e, rest, hwhere, rfl⟩ := hnested
        refine gives_call hwhere rfl fun item => ?_
        refine (ih (s.descend.enter name item)).mono fun f hf => ?_
        rw [Expr.height, if_pos hwhere]
        exact hdescend hf
      · rw [Expr.height_call_eq_one fun source name type e rest hwhere hargs =>
          hnested ⟨source, name, type, e, rest, hwhere, hargs⟩]
        exact (gives_true _).mono fun _ _ => by omega
  | case4 s hdepth op left right type hand hor =>
      have hheight : (Expr.binary op left right type).height = 1 := by
        cases op <;> first | rfl | contradiction
      rw [hheight]
      exact (gives_true _).mono fun _ _ => by omega
  | case7 s hdepth | case8 s hdepth | case9 s hdepth | case10 s hdepth | case11 s hdepth =>
      exact (gives_true _).mono fun _ _ => by simp only [Expr.height]; omega

/-! ### Predicates -/

theorem cut_predicate (model : Model) (p : Predicate) {m m' : Nat} (h : m ≤ m') :
    (predicate model m p).Cut (m < p.body.height) m (predicate model m' p) := by
  unfold predicate predicateIn
  dsimp only [Scope.create]
  cases model.registry.find? p.type with
  | none => exact .inl rfl
  | some root =>
      dsimp only
      split
      · have hcut := cut_expression (Scope.document model m p.name root 0) p.body model.registry 0
          m' h
        refine hcut.mono fun hdeep => ?_
        have hbody : m < 0 + p.body.height := hdeep.2
        omega
      · exact .inl rfl

theorem height_le_of_ok {model : Model} {p : Predicate} {m : Nat} {f : Filter}
    (h : predicate model m p = .ok f) : p.body.height ≤ m := by
  unfold predicate predicateIn at h
  split at h
  · cases h
  · split at h
    · have hheight : 0 + p.body.height ≤ m := (gives_height _ p.body).of_ok h
      omega
    · cases h

/-- The limit of depth cuts off exactly the predicates that lie too deep. What
has a filter keeps to the limit, and has the same filter under every larger
one; what keeps to the limit has a filter if it has one under a larger limit;
and what does not is refused for its depth, or for what every larger limit
would refuse it for as well. -/
theorem predicate_limited (model : Model) (p : Predicate) (m : Nat) :
    (∀ f, predicate model m p = .ok f →
      p.body.height ≤ m ∧ ∀ m', m ≤ m' → predicate model m' p = .ok f) ∧
    (∀ m' f, m ≤ m' → predicate model m' p = .ok f → p.body.height ≤ m →
      predicate model m p = .ok f) ∧
    (m < p.body.height → ∃ e, predicate model m p = .error e ∧
      ((∃ part, e = ⟨.tooDeep m, some part⟩) ∨
        ∀ m', m ≤ m' → predicate model m' p = .error e)) := by
  refine ⟨fun f hf => ⟨height_le_of_ok hf, fun m' h => ?_⟩, fun m' f h hf hheight => ?_,
    fun hdeep => ?_⟩
  · obtain heq | ⟨-, part, hcut⟩ := cut_predicate model p h
    · rw [← heq, hf]
    · cases hf.symm.trans hcut
  · obtain heq | ⟨hdeep, -⟩ := cut_predicate model p h
    · rw [heq, hf]
    · omega
  · cases hp : predicate model m p with
    | ok f =>
        have hheight := height_le_of_ok hp
        omega
    | error e =>
        refine ⟨e, rfl, ?_⟩
        by_cases hcut : ∃ part, e = ⟨.tooDeep m, some part⟩
        · exact .inl hcut
        · refine .inr fun m' h => ?_
          obtain heq | ⟨-, part, hpart⟩ := cut_predicate model p h
          · rw [← heq, hp]
          · exact absurd ⟨part, Except.error.inj (hp.symm.trans hpart)⟩ hcut

/-- Three levels: two nested predicates and the test in the inner one. -/
theorem predicate_limited_someOne :
    let f : Filter := .elemMatch ⟨["rows"]⟩ (.elemMatch .root (.test .root (.eq (.int 1))))
    predicate grid 3 someOne = .ok f ∧ someOne.body.height = 3 ∧ predicate grid 64 someOne = .ok f ∧
      ∃ part, predicate grid 2 someOne = .error ⟨.tooDeep 2, some part⟩ := by
  intro f
  have hf : predicate grid 3 someOne = .ok f := rfl
  obtain ⟨-, hlarger⟩ := (predicate_limited grid someOne 3).1 f hf
  obtain ⟨e, he, ⟨part, rfl⟩ | hany⟩ := (predicate_limited grid someOne 2).2.2 (by decide)
  · exact ⟨hf, by decide, hlarger 64 (by decide), part, he⟩
  · cases hf.symm.trans (hany 3 (by decide))

end Compile

end QueryFilter
