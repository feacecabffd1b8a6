import QueryFilter.Proofs.Assembly
import QueryFilter.Proofs.Depth

/-!
Conjunctions and disjunctions of many operands. Parentheses change nothing: the
filters of the operands stand beside each other in source order, and the first
operand that has no filter decides the error.
-/

namespace QueryFilter

namespace Junction

def op : Junction → BinaryOp
  | .and => .and
  | .or => .or

/-- An expression that joins operands in their order, with parentheses
anywhere. -/
inductive Joins (j : Junction) : List Expr → Expr → Prop where
  | operand (e : Expr) : Joins j [e] e
  | node {ls rs : List Expr} {left right : Expr} (type : Option Ty) :
      Joins j ls left → Joins j rs right → Joins j (ls ++ rs) (.binary j.op left right type)

theorem height_node (j : Junction) (left right : Expr) (type : Option Ty) :
    (Expr.binary j.op left right type).height = 1 + max left.height right.height := by
  cases j <;> rfl

end Junction

namespace Compile

variable {s : Scope} {j : Junction} {ps : List Expr} {e : Expr}

/-- Below the limit the depth of an expression is nothing to its filter. -/
theorem expression_descend (h : s.depth + (1 + e.height) ≤ s.maxDepth) :
    expression s.descend e = expression s e := by
  obtain heq | ⟨⟨-, hdeep⟩, -⟩ := cut_expression s.descend e s.model.registry s.depth s.maxDepth
    (by simp only [Scope.descend]; omega)
  · exact heq
  · simp only [Scope.descend] at hdeep
    omega

theorem expression_node (j : Junction) {left right : Expr} {type : Option Ty}
    (h : s.depth + (Expr.binary j.op left right type).height ≤ s.maxDepth) :
    expression s (.binary j.op left right type)
      = expression s left >>= fun l => expression s right >>= fun r => pure (j.join [l, r]) := by
  rw [j.height_node] at h
  rw [← expression_descend (e := left) (by omega), ← expression_descend (e := right) (by omega)]
  cases j with
  | and | or =>
      rw [Junction.op, expression, if_neg (by omega)]
      rfl

theorem expression_node_of_ok (j : Junction) {left right : Expr} {l r : Filter} {type : Option Ty}
    (h : s.depth + (Expr.binary j.op left right type).height ≤ s.maxDepth)
    (hl : expression s left = .ok l) (hr : expression s right = .ok r) :
    expression s (.binary j.op left right type) = .ok (j.join [l, r]) := by
  rw [expression_node j h, hl, hr]
  rfl

/-- An expression has the parts of its operands, in their order. -/
theorem parts_expression (h : j.Joins ps e) (hdepth : s.depth + e.height ≤ s.maxDepth) :
    j.parts <$> expression s e = (·.flatMap j.parts) <$> ps.mapM (expression s) := by
  induction h with
  | operand e => simp
  | @node ls rs left right type _ _ ihl ihr =>
      have hnode := expression_node j hdepth
      rw [j.height_node] at hdepth
      have hl := ihl (by omega)
      have hr := ihr (by omega)
      calc j.parts <$> expression s (.binary j.op left right type)
          = j.parts <$> expression s left >>= fun l =>
              j.parts <$> expression s right >>= fun r => pure (l ++ r) := by
            rw [hnode]
            simp [Junction.parts_join]
        _ = (·.flatMap j.parts) <$> ls.mapM (expression s) >>= fun l =>
              (·.flatMap j.parts) <$> rs.mapM (expression s) >>= fun r => pure (l ++ r) := by
            rw [hl, hr]
        _ = (·.flatMap j.parts) <$> (ls ++ rs).mapM (expression s) := by simp

/-- An expression of several operands is one junction of their parts. -/
theorem expression_of_joins (h : j.Joins ps e) (hps : 2 ≤ ps.length)
    (hdepth : s.depth + e.height ≤ s.maxDepth) :
    expression s e = j.join <$> ps.mapM (expression s) := by
  have hnode : expression s e = j.node <$> j.parts <$> expression s e := by
    cases h with
    | operand => simp at hps
    | node type hl hr =>
        rw [expression_node j hdepth]
        simp [Junction.join]
  rw [hnode, parts_expression h hdepth, Functor.map_map]
  rfl

/-- A conjunction or disjunction of several operands, however it is
parenthesised, has a filter exactly if all operands have one; it is a single
junction of theirs in source order, in which those of its own kind are replaced
by their parts. Otherwise the first operand without a filter decides the error.
No filter has a junction inside one of its own kind. -/
theorem junctions_in_order :
    (∀ (j : Junction) (s : Scope) (ps : List Expr) (e : Expr), 2 ≤ ps.length → j.Joins ps e →
      s.depth + e.height ≤ s.maxDepth →
      ((∃ f, expression s e = .ok f) ↔ ∀ p ∈ ps, ∃ f, expression s p = .ok f) ∧
      (∀ fs, List.Forall₂ (fun p f => expression s p = .ok f) ps fs →
        expression s e = .ok (j.node (fs.flatMap j.parts))) ∧
      ∀ before p after error, ps = before ++ p :: after →
        (∀ q ∈ before, ∃ f, expression s q = .ok f) → expression s p = .error error →
        expression s e = .error error) ∧
    ∀ f : Filter, f.Built → ∀ (j : Junction) filters, j.node filters ∈ f.nodes →
      ∀ part ∈ filters, ∀ inner, part ≠ j.node inner := by
  refine ⟨fun j s ps e hps hjoins hdepth => ?_, fun f hf j filters hnode => ?_⟩
  · have heq := expression_of_joins hjoins hps hdepth
    refine ⟨?_, fun fs hfs => ?_, fun before p after error hsplit hbefore hp => ?_⟩
    · rw [← exists_mapM_eq_ok_iff, heq]
      simp only [map_eq_ok]
      exact ⟨fun ⟨_, fs, hfs, _⟩ => ⟨fs, hfs⟩, fun ⟨fs, hfs⟩ => ⟨_, fs, hfs, rfl⟩⟩
    · rw [heq, mapM_eq_ok_iff.mpr hfs]
      rfl
    · rw [heq, hsplit, mapM_eq_error hbefore hp]
      rfl
  · exact ((j.sound_node filters).mp (hf.sound _ hnode)).2

def rows : Expr :=
  .member (.param "x" (.cls "Grid" (some 0))) "Rows" (some (.array (.array .int32)))

theorem built_rows : rows.Built := by
  have hgrid : (Expr.param "x" (.cls "Grid" (some 0))).Built :=
    .parameter (rfl : Expr.parameter "x" (some (.cls "Grid" (some 0))) = .ok _)
  exact .memberOf hgrid (rfl : Expr.memberOf grid.schema _ "Rows" = .ok _)

/-- Whether there are rows; this is a conjunction itself. -/
def someRow : Expr := .call none (.any (.array .int32)) [rows]

def threeRows : Expr :=
  .binary (.compare .eq) (.member rows "Length" (some .int32)) (.const (.int 3) .int32)
    (some .boolean)

theorem junctions_in_order_rows :
    let s := Scope.document grid 64 "x" (.document "Grid" (some 0) 0) 0
    let both (left right : Expr) : Expr := .binary .and left right (some .boolean)
    let yes : Expr := .const (.bool true) .boolean
    let one : Expr := .const (.int 1) .int32
    let f : Filter := .and [.test ⟨["rows"]⟩ (.ne .null), .not (.test ⟨["rows"]⟩ (.size 0)),
      .test ⟨["rows"]⟩ (.size 3), .everything]
    expression s (both (both someRow threeRows) yes) = .ok f ∧
      expression s (both someRow (both threeRows yes)) = .ok f ∧
      expression s (both (both someRow one) yes) = .error ⟨.notBooleanConstant, some one⟩ ∧
      f.Built ∧ ∀ inner, Filter.everything ≠ .and inner := by
  intro s both yes one f
  have hleft (p q r : Expr) : Junction.and.Joins [p, q, r] (both (both p q) r) :=
    .node (some .boolean) (.node (some .boolean) (.operand p) (.operand q)) (.operand r)
  have hright (p q r : Expr) : Junction.and.Joins [p, q, r] (both p (both q r)) :=
    .node (some .boolean) (.operand p) (.node (some .boolean) (.operand q) (.operand r))
  have hfilters : List.Forall₂ (fun p f => expression s p = .ok f) [someRow, threeRows, yes]
      [.nonEmptyArray ⟨["rows"]⟩, .test ⟨["rows"]⟩ (.size 3), .everything] :=
    .cons rfl (.cons rfl (.cons rfl .nil))
  have hsize (n : Nat) : (Filter.test ⟨["rows"]⟩ (.size n)).Built :=
    .sizeOf (Filter.sizeOf_of_nonneg ⟨["rows"]⟩ (Int.natCast_nonneg n))
  have hpresent : (Filter.test ⟨["rows"]⟩ (.ne .null)).Built := .compare _ .ne .null
  have hnonEmpty : (Filter.nonEmptyArray ⟨["rows"]⟩).Built := by
    refine @Filter.Built.andOf [.test ⟨["rows"]⟩ (.ne .null), .not (.test ⟨["rows"]⟩ (.size 0))]
      _ ?_ rfl
    simpa using And.intro hpresent (.notOf (hsize 0) rfl)
  have hbuilt : f.Built := by
    refine @Filter.Built.andOf [.nonEmptyArray ⟨["rows"]⟩, .test ⟨["rows"]⟩ (.size 3), .everything]
      _ ?_ rfl
    simpa using And.intro hnonEmpty (And.intro (hsize 3) .everything)
  have hfirst : ∀ q ∈ [someRow], ∃ f, expression s q = .ok f :=
    List.forall_mem_singleton.mpr ⟨_, rfl⟩
  refine ⟨?_, ?_, ?_, hbuilt, ?_⟩
  · exact (junctions_in_order.1 .and s _ _ (by decide) (hleft someRow threeRows yes) (by decide)).2.1
      _ hfilters
  · exact (junctions_in_order.1 .and s _ _ (by decide) (hright someRow threeRows yes) (by decide)).2.1
      _ hfilters
  · exact (junctions_in_order.1 .and s _ _ (by decide) (hleft someRow one yes) (by decide)).2.2
      [someRow] one [yes] _ rfl hfirst rfl
  · exact junctions_in_order.2 f hbuilt .and _ (Filter.self_mem_nodes f) _ (by simp)

end Compile

end QueryFilter
