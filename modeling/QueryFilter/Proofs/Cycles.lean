import Mathlib.Data.List.Nodup
import Mathlib.Data.List.Perm.Subperm
import Mathlib.Logic.Relation
import QueryFilter.Except
import QueryFilter.Model.References

/-!
The search for a class that contains itself ends well exactly if there is none,
and otherwise names one, with a class that refers to it. A path through the
graph is no longer than there are classes, so no search is cut short.
-/

namespace QueryFilter.ReferenceGraph

open Relation

variable {graph : ReferenceGraph}

/-- A described class refers to another. -/
def Refers (graph : ReferenceGraph) (a b : String) : Prop :=
  ∃ referred, graph.lookup a = some referred ∧ b ∈ referred

/-- No class reaches itself. -/
def Acyclic (graph : ReferenceGraph) : Prop := ∀ a, ¬ TransGen graph.Refers a a

theorem mem_keys_of_lookup {name : String} {referred : List String}
    (h : graph.lookup name = some referred) : name ∈ graph.map Prod.fst := by
  obtain ⟨before, after, rfl, -⟩ := List.lookup_eq_some_iff.mp h
  simp

theorem not_refers {a b : String} (h : graph.lookup a = none) : ¬ graph.Refers a b := by
  rintro ⟨referred, hsome, -⟩
  rw [h] at hsome
  cases hsome

/-! ### What is known to be free of cycles -/

/-- Classes that were cleared one after the other: each refers to classes that
had been cleared before it, and to names that are no classes. -/
inductive Settled (graph : ReferenceGraph) : List String → Prop where
  | nil : Settled graph []
  | cons {name : String} {referred free : List String} :
      graph.lookup name = some referred →
      (∀ next ∈ referred, next ∈ free ∨ graph.lookup next = none) →
      Settled graph free → Settled graph (name :: free)

theorem Settled.closed {free : List String} (h : Settled graph free) {a b : String}
    (ha : a ∈ free) (hab : graph.Refers a b) : b ∈ free ∨ graph.lookup b = none := by
  induction h with
  | nil => cases ha
  | @cons name referred free hname hreferred _ ih =>
      have hfree : b ∈ free ∨ graph.lookup b = none := by
        rcases List.mem_cons.mp ha with rfl | ha
        · obtain ⟨others, hothers, hb⟩ := hab
          rw [hname, Option.some.injEq] at hothers
          exact hreferred b (hothers ▸ hb)
        · exact ih ha
      exact hfree.imp_left (List.mem_cons_of_mem _)

theorem Settled.closed_reflTransGen {free : List String} (h : Settled graph free) {a b : String}
    (ha : a ∈ free) (hab : ReflTransGen graph.Refers a b) :
    b ∈ free ∨ graph.lookup b = none := by
  induction hab with
  | refl => exact .inl ha
  | tail _ hstep ih =>
      rcases ih with hfree | hnone
      · exact h.closed hfree hstep
      · exact absurd hstep (not_refers hnone)

/-- What has been cleared reaches only what had been cleared before. -/
theorem Settled.not_transGen {free : List String} (h : Settled graph free) {a : String}
    (ha : a ∈ free) : ¬ TransGen graph.Refers a a := by
  induction h with
  | nil => cases ha
  | @cons name referred free hname hreferred hsettled ih =>
      by_cases hfree : a ∈ free
      · exact ih hfree
      obtain rfl := (List.mem_cons.mp ha).resolve_right hfree
      intro hcycle
      obtain ⟨next, ⟨others, hothers, hnext⟩, hback⟩ := TransGen.head'_iff.mp hcycle
      rw [hname, Option.some.injEq] at hothers
      rcases hreferred next (hothers ▸ hnext) with hnext | hnone
      · rcases hsettled.closed_reflTransGen hnext hback with hmem | hnone
        · exact hfree hmem
        · rw [hname] at hnone
          cases hnone
      · -- a name that is no class leads nowhere, not even back
        rcases ReflTransGen.cases_head hback with rfl | ⟨other, hstep, -⟩
        · rw [hname] at hnone
          cases hnone
        · exact not_refers hnone hstep

/-! ### The search from one class -/

/-- A class that is met below the classes on a path: these are all different,
and it is none of them. -/
structure OnPath (graph : ReferenceGraph) (path : List String) (name : String) : Prop where
  nodup : path.Nodup
  known : path ⊆ graph.map Prod.fst
  fresh : name ∉ path

theorem onPath_nil (name : String) : OnPath graph [] name :=
  ⟨.nil, List.nil_subset _, List.not_mem_nil⟩

theorem OnPath.cons {path : List String} {name next : String} (h : OnPath graph path name)
    {referred : List String} (hname : graph.lookup name = some referred)
    (hnext : next ∉ name :: path) : OnPath graph (name :: path) next :=
  ⟨List.nodup_cons.mpr ⟨h.fresh, h.nodup⟩,
    List.cons_subset.mpr ⟨mem_keys_of_lookup hname, h.known⟩, hnext⟩

/-- A path has room for no more than all classes. -/
theorem OnPath.length_le {path : List String} {name : String} (h : OnPath graph path name) :
    path.length ≤ graph.length := by
  have hlength := (List.subperm_of_subset h.nodup h.known).length_le
  rwa [List.length_map] at hlength

/-- A search below one of the classes that `name` refers to. -/
def follow (graph : ReferenceGraph) (depth : Nat) (path : List String) (name : String)
    (free : List String) (next : String) : Except ModelError (List String) :=
  if next ∈ name :: path then throw (ModelError.recursive next name)
  else search graph depth (name :: path) free next

theorem search_succ (depth : Nat) (path free : List String) (name : String) :
    search graph (depth + 1) path free name =
      match graph.lookup name with
      | none => .ok free
      | some referred =>
        if name ∈ free then .ok free
        else referred.foldlM (follow graph depth path name) free >>= fun free =>
          pure (name :: free) := by
  rw [search]
  rfl

/-- What a search adds to the cleared classes: `name`, if it is one. -/
structure Clears (graph : ReferenceGraph) (name : String) (free cleared : List String) : Prop where
  settled : Settled graph cleared
  kept : free ⊆ cleared
  done : name ∈ cleared ∨ graph.lookup name = none

/-- Clearing one class after the other clears them all. -/
theorem clears_foldlM {visit : List String → String → Except ModelError (List String)}
    (hvisit : ∀ free next cleared, Settled graph free → visit free next = .ok cleared →
      Clears graph next free cleared)
    {names free cleared : List String} (hfree : Settled graph free)
    (h : names.foldlM visit free = .ok cleared) :
    Settled graph cleared ∧ free ⊆ cleared ∧
      ∀ name ∈ names, name ∈ cleared ∨ graph.lookup name = none := by
  induction names generalizing free with
  | nil =>
      cases h
      exact ⟨hfree, List.Subset.refl _, fun name hname => absurd hname List.not_mem_nil⟩
  | cons next names ih =>
      rw [List.foldlM_cons] at h
      obtain ⟨between, hnext, h⟩ := bind_eq_ok.mp h
      have hbetween := hvisit free next between hfree hnext
      obtain ⟨hsettled, hkept, hdone⟩ := ih hbetween.settled h
      refine ⟨hsettled, List.Subset.trans hbetween.kept hkept, fun name hname => ?_⟩
      rcases List.mem_cons.mp hname with rfl | hname
      · exact hbetween.done.imp_left fun hmem => hkept hmem
      · exact hdone name hname

theorem clears_search {depth : Nat} {path free cleared : List String} {name : String}
    (hpath : OnPath graph path name) (hdepth : graph.length < depth + path.length)
    (hfree : Settled graph free) (h : search graph depth path free name = .ok cleared) :
    Clears graph name free cleared := by
  induction depth generalizing path free cleared name with
  | zero =>
      have hlength := hpath.length_le
      omega
  | succ depth ih =>
      rw [search_succ] at h
      split at h
      · rename_i hnone
        cases h
        exact ⟨hfree, List.Subset.refl _, .inr hnone⟩
      rename_i referred hname
      split at h
      · rename_i hmem
        cases h
        exact ⟨hfree, List.Subset.refl _, .inl hmem⟩
      obtain ⟨between, hfold, ⟨⟩⟩ := bind_eq_ok.mp h
      have hfollow : ∀ free next cleared, Settled graph free →
          follow graph depth path name free next = .ok cleared →
          Clears graph next free cleared := by
        intro free next cleared hfree hnext
        unfold follow at hnext
        split at hnext
        · cases hnext
        · rename_i hfresh
          refine ih (hpath.cons hname hfresh) ?_ hfree hnext
          simp only [List.length_cons]
          omega
      obtain ⟨hsettled, hkept, hdone⟩ := clears_foldlM hfollow hfree hfold
      exact ⟨.cons hname hdone hsettled, List.Subset.trans hkept (List.subset_cons_self _ _),
        .inl List.mem_cons_self⟩

/-! ### What a search finds -/

/-- A class that reaches itself, through one that refers to it. -/
def Finds (graph : ReferenceGraph) (e : ModelError) : Prop :=
  ∃ className through, e = .recursive className through ∧
    graph.Refers through className ∧ ReflTransGen graph.Refers className through

theorem finds_foldlM {visit : List String → String → Except ModelError (List String)}
    {names : List String}
    (hvisit : ∀ free next e, next ∈ names → visit free next = .error e → Finds graph e)
    {free : List String} {e : ModelError} (h : names.foldlM visit free = .error e) :
    Finds graph e := by
  induction names generalizing free with
  | nil => cases h
  | cons next names ih =>
      rw [List.foldlM_cons] at h
      rcases bind_eq_error.mp h with hnext | ⟨between, -, h⟩
      · exact hvisit free next e List.mem_cons_self hnext
      · exact ih (fun free other e hother => hvisit free other e (List.mem_cons_of_mem _ hother)) h

/-- The classes on the path all reach the class that is searched, so one that
is met again closes a cycle. -/
theorem finds_search {depth : Nat} {path free : List String} {name : String}
    (hpath : ∀ p ∈ path, ReflTransGen graph.Refers p name) {e : ModelError}
    (h : search graph depth path free name = .error e) : Finds graph e := by
  induction depth generalizing path free name e with
  | zero => cases h
  | succ depth ih =>
      rw [search_succ] at h
      split at h
      · cases h
      rename_i referred hname
      split at h
      · cases h
      have hreach : ∀ p ∈ name :: path, ReflTransGen graph.Refers p name := by
        intro p hp
        rcases List.mem_cons.mp hp with rfl | hp
        · exact .refl
        · exact hpath p hp
      have hfollow : ∀ free next e, next ∈ referred →
          follow graph depth path name free next = .error e → Finds graph e := by
        intro free next e hmem hnext
        have hrefers : graph.Refers name next := ⟨referred, hname, hmem⟩
        unfold follow at hnext
        split at hnext
        · rename_i hagain
          cases hnext
          exact ⟨next, name, rfl, hrefers, hreach next hagain⟩
        · exact ih (fun p hp => (hreach p hp).tail hrefers) hnext
      rcases bind_eq_error.mp h with hfold | ⟨between, -, ⟨⟩⟩
      exact finds_foldlM hfollow hfold

/-! ### The whole check -/

theorem finds_checkAcyclic {e : ModelError} (h : checkAcyclic graph = .error e) :
    Finds graph e := by
  rcases bind_eq_error.mp h with hfold | ⟨cleared, -, ⟨⟩⟩
  exact finds_foldlM (fun free next e _ hnext => finds_search (by simp) hnext) hfold

theorem Finds.not_acyclic {e : ModelError} (h : Finds graph e) : ¬ graph.Acyclic := by
  obtain ⟨className, through, -, hrefers, hreach⟩ := h
  exact fun hacyclic => hacyclic className (.tail' hreach hrefers)

/-- The check passes exactly the graphs in which no class reaches itself. -/
theorem checkAcyclic_eq_ok_iff : checkAcyclic graph = .ok () ↔ graph.Acyclic := by
  constructor
  · intro h
    obtain ⟨cleared, hfold, -⟩ := bind_eq_ok.mp h
    obtain ⟨hsettled, -, hdone⟩ := clears_foldlM
      (fun free name cleared hfree hname =>
        clears_search (onPath_nil name) (by simp) hfree hname) .nil hfold
    intro a hcycle
    obtain ⟨next, ⟨referred, ha, -⟩, -⟩ := TransGen.head'_iff.mp hcycle
    rcases hdone a (mem_keys_of_lookup ha) with hmem | hnone
    · exact hsettled.not_transGen hmem hcycle
    · rw [ha] at hnone
      cases hnone
  · intro hacyclic
    cases h : checkAcyclic graph with
    | ok => rfl
    | error e => exact absurd hacyclic (finds_checkAcyclic h).not_acyclic

/-- A class that is shared but not met inside itself. -/
example : checkAcyclic [("A", ["B", "C"]), ("B", ["D"]), ("C", ["D"]), ("D", [])]
    = .ok () := by rfl

end QueryFilter.ReferenceGraph
