import QueryFilter.Proofs.Renaming

/-!
A refusal points into the predicate. Compilation looks at nothing but parts of
the predicate, so what it refuses stands in a place of it: two runs of one
predicate are refused in corresponding places, and corresponding places of one
predicate are the same.
-/

namespace QueryFilter

/-! ### An expression beside itself -/

theorem sameBinder_self {names : List (String × String)} (h : ∀ pair ∈ names, pair.1 = pair.2)
    (x : String) : SameBinder names x x := by
  induction names with
  | nil => rfl
  | cons pair names ih =>
      obtain ⟨a, b⟩ := pair
      obtain ⟨hpair, hnames⟩ := List.forall_mem_cons.mp h
      obtain rfl : a = b := hpair
      by_cases hx : x = a
      · exact .inl ⟨hx, hx⟩
      · exact .inr ⟨hx, hx, ih hnames⟩

namespace Expr

theorem eq_of_mem_zip_self {args : List Expr} {arg arg' : Expr} (h : (arg, arg') ∈ args.zip args) :
    arg ∈ args ∧ arg' = arg := by
  obtain ⟨n, hn⟩ := List.mem_iff_getElem?.mp h
  obtain ⟨harg, harg'⟩ := List.getElem?_zip_eq_some.mp hn
  exact ⟨List.mem_of_getElem? harg, Option.some.inj (harg'.symm.trans harg)⟩

/-- An expression differs in no name from itself. -/
theorem renamed_self (e : Expr) (names : List (String × String))
    (h : ∀ pair ∈ names, pair.1 = pair.2) : Renamed names e e := by
  match e with
  | .param name type => exact .param type (sameBinder_self h name)
  | .const value type => exact .const value type
  | .member object name type => exact .member name type (renamed_self object names h)
  | .index object key type =>
      exact .index type (renamed_self object names h) (renamed_self key names h)
  | .call (some object) method args =>
      refine .callOn method (renamed_self object names h) rfl fun arg arg' hmem => ?_
      obtain ⟨harg, rfl⟩ := eq_of_mem_zip_self hmem
      exact renamed_self arg' names h
  | .call none method args =>
      refine .callStatic method rfl fun arg arg' hmem => ?_
      obtain ⟨harg, rfl⟩ := eq_of_mem_zip_self hmem
      exact renamed_self arg' names h
  | .binary op left right type =>
      exact .binary op type (renamed_self left names h) (renamed_self right names h)
  | .not operand => exact .not (renamed_self operand names h)
  | .lambda name type body =>
      exact .lambda type (renamed_self body _ (List.forall_mem_cons.mpr ⟨rfl, h⟩))
termination_by e

theorem twins_self (e : Expr) : Twins e e [] e e :=
  ⟨aligned_whole e e, e.renamed_self [] fun _ h => absurd h List.not_mem_nil⟩

theorem Aligned.exists_at? {w e e' : Expr} (h : Aligned w w e e') :
    ∃ position, w.at? position = some e := h.imp fun _ h => h.1

end Expr

theorem Scope.similar_self (s : Scope) : Similar [] s s :=
  ⟨rfl, rfl, rfl, rfl, fun h => by rw [h]⟩

/-! ### Errors of one run -/

/-- An error about a part of an expression. -/
def CompileError.PointsInto (w : Expr) (e : CompileError) : Prop :=
  ∃ part position, e.expression = some part ∧ w.at? position = some part

/-- A run that agrees with itself is refused for a part of the whole. -/
theorem Compiled.Agree.points {α : Type} {w : Expr} {x : Compiled α} (h : x.Agree w w x)
    {e : CompileError} (he : x = .error e) : e.kind = .none ∨ e.PointsInto w := by
  rw [he] at h
  refine h.2.imp_right fun ⟨part, part', hpart, _, haligned⟩ => ?_
  obtain ⟨position, hposition⟩ := haligned.exists_at?
  exact ⟨part, position, hpart, hposition⟩

namespace Compile

theorem field_points {s : Scope} {e : Expr} {error : CompileError}
    (h : field s e = .error error) : error.kind = .none ∨ error.PointsInto e :=
  (agree_field s.similar_self e.twins_self).points h

theorem expression_points {s : Scope} {e : Expr} {error : CompileError}
    (h : expression s e = .error error) : error.kind = .none ∨ error.PointsInto e :=
  (agree_expression s s e e [] s.similar_self e.twins_self).points h

end Compile

end QueryFilter
