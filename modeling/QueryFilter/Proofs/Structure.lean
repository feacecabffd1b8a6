import Mathlib.Data.List.Forall2
import QueryFilter.Filter.Outline
import QueryFilter.Json.Fields
import QueryFilter.Proofs.Assembly

/-!
Filters of the same structure. An outline says all about the node that it is
of: outlines are equal exactly if the nodes are of one kind, with the same
attributes, and have equal values and parts of the same structure in order. A
value stands under a key of its own, so one that looks like an outline changes
nothing.
-/

namespace QueryFilter

open List (Forall₂)

namespace Json

theorem sameItems_eq_true_iff {xs ys : List Json} :
    sameItems xs ys = true ↔ Forall₂ (fun v w => v.same w = true) xs ys := by
  induction xs generalizing ys with
  | nil => cases ys <;> simp [sameItems]
  | cons v xs ih =>
      cases ys with
      | nil => simp [sameItems]
      | cons w ys => rw [sameItems, Bool.and_eq_true, List.forall₂_cons, ih]

theorem sameFields_cons {key : String} {v w : Json} {xs ys : Fields} :
    sameFields ((key, v) :: xs) ((key, w) :: ys) = (v.same w && sameFields xs ys) := by
  rw [sameFields, BEq.rfl, Bool.true_and]

/-- Equal objects have equal values under a key. -/
theorem same_of_get? {xs ys : Fields} (h : sameFields xs ys = true) {key : String} {v w : Json}
    (hv : xs.get? key = some v) (hw : ys.get? key = some w) : v.same w = true := by
  induction xs generalizing ys with
  | nil => cases hv
  | cons x xs ih =>
      cases ys with
      | nil => cases hw
      | cons y ys =>
          obtain ⟨k, x⟩ := x
          obtain ⟨l, y⟩ := y
          simp only [sameFields, Bool.and_eq_true, beq_iff_eq] at h
          obtain ⟨⟨rfl, hfirst⟩, hrest⟩ := h
          simp only [Fields.get?, List.lookup_cons] at hv hw
          cases hk : key == k with
          | true =>
              rw [hk] at hv hw
              cases hv
              cases hw
              exact hfirst
          | false =>
              rw [hk] at hv hw
              exact ih hrest hv hw

/-- Under a key that neither object has. -/
theorem sameFields_insert {key : String} {v w : Json} {xs ys : Fields}
    (hkeys : xs.map (·.1) = ys.map (·.1)) (hnew : key ∉ xs.map (·.1)) :
    sameFields (Fields.insert key v xs) (Fields.insert key w ys)
      = (v.same w && sameFields xs ys) := by
  induction xs generalizing ys with
  | nil =>
      obtain rfl : ys = [] := List.map_eq_nil_iff.mp hkeys.symm
      exact sameFields_cons
  | cons x xs ih =>
      cases ys with
      | nil => cases hkeys
      | cons y ys =>
          obtain ⟨k, x⟩ := x
          obtain ⟨l, y⟩ := y
          obtain ⟨rfl, hrest⟩ := List.cons.inj hkeys
          rw [List.map_cons, List.mem_cons, not_or] at hnew
          simp only [Fields.insert, hnew.1, if_false]
          split
          · exact sameFields_cons
          · rw [sameFields_cons, sameFields_cons, ih hrest hnew.2, Bool.and_left_comm]

theorem map_fst_insert {key : String} {v w : Json} {xs ys : Fields}
    (hkeys : xs.map (·.1) = ys.map (·.1)) :
    (Fields.insert key v xs).map (·.1) = (Fields.insert key w ys).map (·.1) := by
  induction xs generalizing ys with
  | nil =>
      obtain rfl : ys = [] := List.map_eq_nil_iff.mp hkeys.symm
      rfl
  | cons x xs ih =>
      cases ys with
      | nil => cases hkeys
      | cons y ys =>
          obtain ⟨k, x⟩ := x
          obtain ⟨l, y⟩ := y
          obtain ⟨rfl, hrest⟩ := List.cons.inj hkeys
          simp only [Fields.insert]
          split
          · simp [hrest]
          · split
            · simp [hrest]
            · simp [ih hrest]

/-- Pairs with the same new keys, inserted into objects with the same keys. -/
theorem sameFields_foldl_insert {ps qs : List (String × Json)} {xs ys : Fields}
    (hfields : xs.map (·.1) = ys.map (·.1)) (hkeys : ps.map (·.1) = qs.map (·.1))
    (hnodup : (ps.map (·.1)).Nodup) (hnew : ∀ p ∈ ps, p.1 ∉ xs.map (·.1)) :
    sameFields (ps.foldl (fun fields pair => Fields.insert pair.1 pair.2 fields) xs)
        (qs.foldl (fun fields pair => Fields.insert pair.1 pair.2 fields) ys) = true
      ↔ sameFields xs ys = true ∧ Forall₂ (fun p q => p.2.same q.2 = true) ps qs := by
  induction ps generalizing qs xs ys with
  | nil =>
      obtain rfl : qs = [] := List.map_eq_nil_iff.mp hkeys.symm
      simp
  | cons p ps ih =>
      cases qs with
      | nil => cases hkeys
      | cons q qs =>
          obtain ⟨key, v⟩ := p
          obtain ⟨l, w⟩ := q
          obtain ⟨rfl, hrest⟩ := List.cons.inj hkeys
          obtain ⟨hfirst, hnodup⟩ := List.nodup_cons.mp hnodup
          have hinsert : ∀ p ∈ ps, p.1 ∉ (Fields.insert key v xs).map (·.1) := by
            intro p hp hmem
            obtain ⟨field, hfield, hkey⟩ := List.mem_map.mp hmem
            rcases Fields.mem_of_mem_insert hfield with rfl | hold
            · exact hfirst (List.mem_map.mpr ⟨p, hp, hkey.symm⟩)
            · exact hnew p (List.mem_cons_of_mem _ hp) (List.mem_map.mpr ⟨field, hold, hkey⟩)
          rw [List.foldl_cons, List.foldl_cons, ih (map_fst_insert hfields) hrest hnodup hinsert,
            sameFields_insert hfields (hnew _ List.mem_cons_self), Bool.and_eq_true,
            List.forall₂_cons, and_assoc, and_left_comm]

/-- Objects of the same keys are equal exactly if the values under each are. -/
theorem same_ofPairs_iff {ps qs : List (String × Json)} (keys : List String)
    (hps : ps.map (·.1) = keys) (hqs : qs.map (·.1) = keys) (hnodup : keys.Nodup) :
    (ofPairs ps).same (ofPairs qs) = true ↔ Forall₂ (fun p q => p.2.same q.2 = true) ps qs := by
  have hfields : sameFields (Fields.ofPairs ps) (Fields.ofPairs qs) = true
      ↔ sameFields [] [] = true ∧ Forall₂ (fun p q => p.2.same q.2 = true) ps qs :=
    sameFields_foldl_insert rfl (hps.trans hqs.symm) (hps ▸ hnodup) fun _ _ => List.not_mem_nil
  exact hfields.trans (and_iff_right rfl)

end Json

/-! ### Nodes -/

theorem Comparison.operator_inj {how how' : Comparison} :
    how.operator = how'.operator ↔ how = how' := by
  refine ⟨fun h => ?_, congrArg operator⟩
  have hof := ofOperator?_operator how
  rw [h, ofOperator?_operator] at hof
  exact (Option.some.inj hof).symm

/-- What a node says apart from its values and its parts. -/
structure Attributes where
  field : Option String := none
  operator : Option Comparison := none
  expected : Option Bool := none
  pattern : Option String := none
  options : Option String := none
  size : Option Nat := none
  divisor : Option Int := none
  remainder : Option Int := none

def Test.attributes (field : String) : Test → Attributes
  | .presence expected => { field, expected }
  | .compare how _ => { field, operator := how }
  | .oneOf _ | .noneOf _ => { field }
  | .regex pattern options => { field, pattern, options }
  | .size length => { field, size := length }
  | .mod divisor remainder => { field, divisor, remainder }

namespace Filter

def attributes : Filter → Attributes
  | .test path t => t.attributes path.text
  | .elemMatch path _ => { field := path.text }
  | _ => {}

/-- The operands of a node that can be any JSON, in order. -/
def values : Filter → List Json
  | .test _ (.compare _ value) => [value]
  | .test _ (.oneOf values) => values
  | .test _ (.noneOf values) => values
  | _ => []

/-- The filters that a node is made of, in order. -/
def parts : Filter → List Filter
  | .elemMatch _ body => [body]
  | .and filters => filters
  | .or filters => filters
  | .nor filters => filters
  | .not filter => [filter]
  | _ => []

/-- Two nodes of one kind. -/
inductive SameKind : Filter → Filter → Prop where
  | presence (p q : Path) (b c : Bool) : SameKind (.test p (.presence b)) (.test q (.presence c))
  | compare (p q : Path) (how how' : Comparison) (v w : Json) :
      SameKind (.test p (.compare how v)) (.test q (.compare how' w))
  | oneOf (p q : Path) (vs ws : List Json) : SameKind (.test p (.oneOf vs)) (.test q (.oneOf ws))
  | noneOf (p q : Path) (vs ws : List Json) :
      SameKind (.test p (.noneOf vs)) (.test q (.noneOf ws))
  | regex (p q : Path) (pattern pattern' options options' : String) :
      SameKind (.test p (.regex pattern options)) (.test q (.regex pattern' options'))
  | size (p q : Path) (m n : Nat) : SameKind (.test p (.size m)) (.test q (.size n))
  | mod (p q : Path) (divisor divisor' remainder remainder' : Int) :
      SameKind (.test p (.mod divisor remainder)) (.test q (.mod divisor' remainder'))
  | elemMatch (p q : Path) (f g : Filter) : SameKind (.elemMatch p f) (.elemMatch q g)
  | and (fs gs : List Filter) : SameKind (.and fs) (.and gs)
  | or (fs gs : List Filter) : SameKind (.or fs) (.or gs)
  | nor (fs gs : List Filter) : SameKind (.nor fs) (.nor gs)
  | not (f g : Filter) : SameKind (.not f) (.not g)
  | everything : SameKind .everything .everything
  | nothing : SameKind .nothing .nothing

variable {f g : Filter}

/-- Kinds have different names. -/
theorem sameKind_of_nodeName (h : f.nodeName = g.nodeName) : f.SameKind g := by
  cases f with
  | test p t =>
      cases t <;> cases g with
      | test q u => cases u <;> first | constructor | simp [nodeName, Test.nodeName] at h
      | _ => simp [nodeName, Test.nodeName] at h
  | _ =>
      cases g with
      | test q u => cases u <;> simp [nodeName, Test.nodeName] at h
      | _ => first | constructor | simp [nodeName] at h

/-! ### Outlines -/

theorem fieldOutline_same {node : String} {p q : Path} {xs ys : List (String × Json)}
    (keys : List String) (hxs : xs.map (·.1) = keys) (hys : ys.map (·.1) = keys)
    (hnodup : ("node" :: "field" :: keys).Nodup) :
    (fieldOutline node p xs).same (fieldOutline node q ys) = true
      ↔ p.text = q.text ∧ Forall₂ (fun x y => x.2.same y.2 = true) xs ys := by
  unfold fieldOutline
  rw [Json.same_ofPairs_iff ("node" :: "field" :: keys) (by simp [hxs]) (by simp [hys]) hnodup]
  simp [Json.same]

theorem combinatorOutline_same {node : String} {xs ys : List Json} :
    (combinatorOutline node xs).same (combinatorOutline node ys) = true
      ↔ Forall₂ (fun v w => v.same w = true) xs ys := by
  unfold combinatorOutline
  rw [Json.same_ofPairs_iff ["node", "filters"] rfl rfl (by decide)]
  simp [Json.same, Json.sameItems_eq_true_iff]

theorem outlines_eq_map (fs : List Filter) : outlines fs = fs.map outline := by
  induction fs with
  | nil => rfl
  | cons f fs ih => rw [outlines, ih, List.map_cons]

theorem combinatorOutline_outlines_same {node : String} {fs gs : List Filter} :
    (combinatorOutline node (outlines fs)).same (combinatorOutline node (outlines gs)) = true
      ↔ Forall₂ (fun f g => f.sameStructure g = true) fs gs := by
  rw [combinatorOutline_same, outlines_eq_map, outlines_eq_map, List.forall₂_map_left_iff,
    List.forall₂_map_right_iff]
  rfl

theorem get?_node_of_outline (f : Filter) :
    ∃ fields : Fields, f.outline = .object fields ∧
      fields.get? "node" = some (.string f.nodeName) := by
  cases f with
  | test p t =>
      cases t
      all_goals
        refine ⟨_, rfl, ?_⟩
        simp [Fields.ofPairs, Fields.get?_insert, nodeName, Test.nodeName]
  | _ =>
      refine ⟨_, rfl, ?_⟩
      simp [Fields.ofPairs, Fields.get?_insert, nodeName]

theorem nodeName_of_sameStructure (h : f.sameStructure g = true) : f.nodeName = g.nodeName := by
  obtain ⟨xs, hxs, hf⟩ := get?_node_of_outline f
  obtain ⟨ys, hys, hg⟩ := get?_node_of_outline g
  rw [sameStructure, hxs, hys, Json.same] at h
  simpa [Json.same] using Json.same_of_get? h hf hg

theorem sameStructure_iff_of_sameKind (h : f.SameKind g) :
    f.sameStructure g = true ↔ f.attributes = g.attributes ∧
      Forall₂ (fun v w => v.same w = true) f.values g.values ∧
      Forall₂ (fun f g => f.sameStructure g = true) f.parts g.parts := by
  cases h with
  | presence p q b c =>
      refine (fieldOutline_same ["exists"] rfl rfl (by decide)).trans ?_
      simp [Json.same, attributes, Test.attributes, values, parts]
  | compare p q how how' v w =>
      refine (fieldOutline_same ["op", "value"] rfl rfl (by decide)).trans ?_
      simp [Json.same, Comparison.operator_inj, attributes, Test.attributes, values, parts,
        and_assoc]
  | oneOf p q vs ws | noneOf p q vs ws =>
      refine (fieldOutline_same ["values"] rfl rfl (by decide)).trans ?_
      simp [Json.same, Json.sameItems_eq_true_iff, attributes, Test.attributes, values, parts]
  | regex p q pattern pattern' options options' =>
      refine (fieldOutline_same ["pattern", "options"] rfl rfl (by decide)).trans ?_
      simp [Json.same, attributes, Test.attributes, values, parts]
  | size p q m n =>
      refine (fieldOutline_same ["size"] rfl rfl (by decide)).trans ?_
      simp only [Json.same, Int.natCast_inj, beq_iff_eq, List.forall₂_cons, List.forall₂_nil_left_iff,
        attributes, Test.attributes, values, parts, Attributes.mk.injEq, Option.some.injEq,
        and_true, true_and]
  | mod p q divisor divisor' remainder remainder' =>
      refine (fieldOutline_same ["divisor", "remainder"] rfl rfl (by decide)).trans ?_
      simp [Json.same, attributes, Test.attributes, values, parts]
  | elemMatch p q f g =>
      refine (fieldOutline_same ["filter"] rfl rfl (by decide)).trans ?_
      simp [sameStructure, attributes, values, parts]
  | and fs gs | or fs gs | nor fs gs =>
      refine combinatorOutline_outlines_same.trans ?_
      simp [attributes, values, parts]
  | not f g =>
      refine (Json.same_ofPairs_iff ["node", "filter"] rfl rfl (by decide)).trans ?_
      simp [Json.same, sameStructure, attributes, values, parts]
  | everything | nothing =>
      refine (Json.same_ofPairs_iff ["node"] rfl rfl (by decide)).trans ?_
      simp [Json.same, attributes, values, parts]

theorem sameStructure_iff : f.sameStructure g = true ↔
    f.nodeName = g.nodeName ∧ f.attributes = g.attributes ∧
      Forall₂ (fun v w => v.same w = true) f.values g.values ∧
      Forall₂ (fun f g => f.sameStructure g = true) f.parts g.parts := by
  constructor
  · intro h
    have hname := nodeName_of_sameStructure h
    exact ⟨hname, (sameStructure_iff_of_sameKind (sameKind_of_nodeName hname)).mp h⟩
  · rintro ⟨hname, hnode⟩
    exact (sameStructure_iff_of_sameKind (sameKind_of_nodeName hname)).mpr hnode

/-! ### Whole trees -/

theorem sizeOf_lt_of_mem_parts {part : Filter} (h : part ∈ f.parts) :
    SizeOf.sizeOf part < SizeOf.sizeOf f := by
  cases f with
  | test | everything | nothing => cases h
  | elemMatch path body =>
      obtain rfl := List.mem_singleton.mp h
      simp only [elemMatch.sizeOf_spec]
      omega
  | not filter =>
      obtain rfl := List.mem_singleton.mp h
      simp only [not.sizeOf_spec]
      omega
  | and filters | or filters | nor filters =>
      have hsmaller : SizeOf.sizeOf part < SizeOf.sizeOf filters := List.sizeOf_lt_of_mem h
      simp only [and.sizeOf_spec, or.sizeOf_spec, nor.sizeOf_spec]
      omega

theorem parts_induction {motive : Filter → Prop}
    (node : ∀ f, (∀ part ∈ f.parts, motive part) → motive f) (f : Filter) : motive f :=
  node f fun part _ => parts_induction node part
termination_by SizeOf.sizeOf f
decreasing_by exact sizeOf_lt_of_mem_parts ‹_›

theorem mem_nodes_of_mem_parts {part node : Filter} (h : part ∈ f.parts)
    (hnode : node ∈ part.nodes) : node ∈ f.nodes := by
  cases f with
  | test | everything | nothing => cases h
  | elemMatch path body =>
      obtain rfl := List.mem_singleton.mp h
      exact List.mem_cons_of_mem _ hnode
  | not filter =>
      obtain rfl := List.mem_singleton.mp h
      exact List.mem_cons_of_mem _ hnode
  | and filters | or filters | nor filters =>
      exact List.mem_cons_of_mem _ (mem_allNodes.mpr ⟨part, h, hnode⟩)

/-- A value of some node of a filter. -/
def Involves (f : Filter) (v : Json) : Prop := ∃ node ∈ f.nodes, v ∈ node.values

theorem involves_of_mem_values {v : Json} (h : v ∈ f.values) : f.Involves v :=
  ⟨f, f.self_mem_nodes, h⟩

theorem involves_of_mem_parts {part : Filter} {v : Json} (h : part ∈ f.parts)
    (hv : part.Involves v) : f.Involves v := by
  obtain ⟨node, hnode, hvalue⟩ := hv
  exact ⟨node, mem_nodes_of_mem_parts h hnode, hvalue⟩

theorem sameStructure_comm (f g : Filter) : f.sameStructure g = g.sameStructure f :=
  Json.same_comm ..

/-- A filter has its own structure if its values equal themselves. -/
theorem sameStructure_self (h : ∀ v, f.Involves v → v.same v = true) :
    f.sameStructure f = true := by
  induction f using parts_induction with
  | node f ih =>
      refine sameStructure_iff.mpr ⟨rfl, rfl, List.forall₂_same.mpr fun v hv => ?_,
        List.forall₂_same.mpr fun part hpart => ?_⟩
      · exact h v (involves_of_mem_values hv)
      · exact ih part hpart fun v hv => h v (involves_of_mem_parts hpart hv)

theorem forall₂_trans {α : Type} {R : α → α → Prop} {as bs cs : List α}
    (hR : ∀ a ∈ as, ∀ b ∈ bs, ∀ c ∈ cs, R a b → R b c → R a c) (hab : Forall₂ R as bs)
    (hbc : Forall₂ R bs cs) : Forall₂ R as cs := by
  induction hab generalizing cs with
  | nil => exact hbc
  | @cons a b as bs hfirst hrest ih =>
      cases hbc with
      | @cons _ c _ cs hfirst' hrest' =>
          refine .cons ?_ (ih (fun a ha b hb c hc => ?_) hrest')
          · exact hR a List.mem_cons_self b List.mem_cons_self c List.mem_cons_self hfirst hfirst'
          · exact hR a (List.mem_cons_of_mem _ ha) b (List.mem_cons_of_mem _ hb) c
              (List.mem_cons_of_mem _ hc)

theorem sameStructure_trans {k : Filter} (h : ∀ u v w, f.Involves u → g.Involves v →
      k.Involves w → u.same v = true → v.same w = true → u.same w = true)
    (hfg : f.sameStructure g = true) (hgk : g.sameStructure k = true) :
    f.sameStructure k = true := by
  induction f using parts_induction generalizing g k with
  | node f ih =>
      obtain ⟨hname, hattributes, hvalues, hparts⟩ := sameStructure_iff.mp hfg
      obtain ⟨hname', hattributes', hvalues', hparts'⟩ := sameStructure_iff.mp hgk
      refine sameStructure_iff.mpr ⟨hname.trans hname', hattributes.trans hattributes',
        forall₂_trans (fun u hu v hv w hw => ?_) hvalues hvalues',
        forall₂_trans (fun a ha b hb c hc => ?_) hparts hparts'⟩
      · exact h u v w (involves_of_mem_values hu) (involves_of_mem_values hv)
          (involves_of_mem_values hw)
      · refine ih a ha fun u v w hu hv hw => ?_
        exact h u v w (involves_of_mem_parts ha hu) (involves_of_mem_parts hb hv)
          (involves_of_mem_parts hc hw)

/-- Filters have the same structure exactly if their roots are of one kind and
have the same attributes, equal values and parts of the same structure, all in
order. Among filters on whose values equality is an equivalence, having the
same structure is one. -/
theorem sameStructure_decides (f g : Filter) :
    (f.sameStructure g = true ↔
      f.nodeName = g.nodeName ∧ f.attributes = g.attributes ∧
        Forall₂ (fun v w => v.same w = true) f.values g.values ∧
        Forall₂ (fun a b => a.sameStructure b = true) f.parts g.parts) ∧
    (¬f.SameKind g → f.sameStructure g = false) ∧
    ∀ S : Filter → Prop,
      Equivalence (fun v w : {v // ∃ f, S f ∧ f.Involves v} => v.1.same w.1 = true) →
      Equivalence (fun f g : {f // S f} => f.1.sameStructure g.1 = true) := by
  refine ⟨sameStructure_iff, fun hkind => ?_, fun S hvalues => ?_⟩
  · rw [Bool.eq_false_iff]
    exact fun h => hkind (sameKind_of_nodeName (nodeName_of_sameStructure h))
  · refine ⟨?_, ?_, ?_⟩
    · rintro ⟨f, hf⟩
      exact sameStructure_self fun v hv => hvalues.refl ⟨v, f, hf, hv⟩
    · rintro ⟨f, hf⟩ ⟨g, hg⟩ h
      exact (sameStructure_comm g f).trans h
    · rintro ⟨f, hf⟩ ⟨g, hg⟩ ⟨k, hk⟩ hfg hgk
      refine sameStructure_trans (fun u v w hu hv hw huv hvw => ?_) hfg hgk
      exact hvalues.trans (x := ⟨u, f, hf, hu⟩) (y := ⟨v, g, hg, hv⟩) (z := ⟨w, k, hk, hw⟩)
        huv hvw

/-- A list of alternatives one of which looks like the outline of a filter, an
integer next to the double that it equals, and filters with values on which
equality is an equivalence. -/
theorem sameStructure_decides_lookalike :
    let outlined : Json := (Filter.not .everything).outline
    let f : Filter := .nor [.test ⟨["a"]⟩ (.oneOf [outlined, .int 1]), .not .everything]
    let g : Filter := .nor [.test ⟨["a"]⟩ (.oneOf [outlined, .float (Binary64.ofInt 1)]),
      .not .everything]
    f.sameStructure g = true ∧ f.sameStructure (.not .everything) = false ∧
      Equivalence fun f g : {f : Filter // ∀ v, f.Involves v → ∃ s, v = .string s} =>
        f.1.sameStructure g.1 = true := by
  intro outlined f g
  have hone : (Json.int 1).same (.float (Binary64.ofInt 1)) = true := by decide +kernel
  have houtlined : outlined.same outlined = true := by decide +kernel
  have htest : (Filter.test ⟨["a"]⟩ (.oneOf [outlined, .int 1])).sameStructure
      (.test ⟨["a"]⟩ (.oneOf [outlined, .float (Binary64.ofInt 1)])) = true :=
    (sameStructure_decides _ _).1.mpr ⟨rfl, rfl, .cons houtlined (.cons hone .nil), .nil⟩
  have heverything : (Filter.not .everything).sameStructure (.not .everything) = true := by
    decide +kernel
  have hkind (filters : List Filter) : ¬SameKind (.nor filters) (.not .everything) := by
    intro h
    cases h
  refine ⟨(sameStructure_decides f g).1.mpr
    ⟨rfl, rfl, .nil, .cons htest (.cons heverything .nil)⟩,
    (sameStructure_decides f (.not .everything)).2.1 (hkind _),
    (sameStructure_decides f g).2.2 _ ⟨?_, fun h => (Json.same_comm ..).trans h, ?_⟩⟩
  · rintro ⟨v, f, hf, hv⟩
    obtain ⟨s, rfl⟩ := hf v hv
    exact BEq.rfl
  · rintro ⟨u, f, hf, hu⟩ ⟨v, g, hg, hv⟩ ⟨w, k, hk, hw⟩ huv hvw
    obtain ⟨s, rfl⟩ := hf u hu
    obtain ⟨t, rfl⟩ := hg v hv
    obtain ⟨r, rfl⟩ := hk w hw
    simp only [Json.same, beq_iff_eq] at huv hvw ⊢
    exact huv.trans hvw

end Filter

end QueryFilter
