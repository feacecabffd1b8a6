import QueryFilter.Json.Basic

/-!
Fields that are inserted one after the other: what is found under a key is the
last value inserted under it, the keys stay in ascending order, and new keys
lose no field.
-/

namespace QueryFilter.Fields

theorem get?_eq_none {fields : Fields} {key : String} (h : ∀ f ∈ fields, f.1 ≠ key) :
    fields.get? key = none :=
  List.lookup_eq_none_iff.mpr fun f hf => by simpa using (h f hf).symm

theorem get?_ne_none_of_mem {fields : Fields} {f : String × Json} (h : f ∈ fields) :
    fields.get? f.1 ≠ none := by
  intro hnone
  have hne := List.lookup_eq_none_iff.mp hnone f h
  simp at hne

theorem get?_insert (fields : Fields) (key : String) (value : Json) (other : String) :
    (insert key value fields).get? other
      = if other = key then some value else fields.get? other := by
  split
  · rename_i h
    rw [h, get?_insert_self]
  · rename_i h
    exact get?_insert_of_ne fields value h

/-- The last value under a key. -/
def last? (fields : List (String × Json)) (key : String) : Option Json :=
  (fields.reverse.find? (·.1 == key)).map (·.2)

/-- The last of the pairs with a key counts, and it hides what was there. -/
theorem get?_foldl_insert (pairs : List (String × Json)) (fields : Fields) (key : String) :
    (pairs.foldl (fun fields pair => insert pair.1 pair.2 fields) fields).get? key
      = (last? pairs key).or (fields.get? key) := by
  unfold last?
  induction pairs generalizing fields with
  | nil => simp
  | cons pair rest ih =>
      rw [List.foldl_cons, ih, get?_insert, List.reverse_cons, List.find?_append]
      cases rest.reverse.find? (·.1 == key) with
      | some found => simp
      | none =>
          by_cases h : key = pair.1
          · simp [h]
          · have hne : (pair.1 == key) = false := by simpa using fun he => h he.symm
            simp [h, hne]

theorem get?_ofPairs (pairs : List (String × Json)) (key : String) :
    (ofPairs pairs).get? key = last? pairs key := by
  have h := get?_foldl_insert pairs [] key
  simpa [ofPairs, get?] using h

theorem mem_of_mem_insert {fields : Fields} {key : String} {value : Json} {field : String × Json}
    (h : field ∈ insert key value fields) : field = (key, value) ∨ field ∈ fields := by
  induction fields with
  | nil => exact .inl (List.mem_singleton.mp h)
  | cons first rest ih =>
      obtain ⟨k, v⟩ := first
      simp only [insert] at h
      split at h
      · exact List.mem_cons.mp h
      · split at h
        · rcases List.mem_cons.mp h with hnew | hrest
          · exact .inl hnew
          · exact .inr (List.mem_cons_of_mem _ hrest)
        · rcases List.mem_cons.mp h with hfirst | hrest
          · exact .inr (List.mem_cons.mpr (.inl hfirst))
          · exact (ih hrest).imp_right (List.mem_cons_of_mem _)

/-- Only what is inserted is there. -/
theorem mem_of_mem_ofPairs {pairs : List (String × Json)} {field : String × Json}
    (h : field ∈ ofPairs pairs) : field ∈ pairs := by
  have hfold (pairs : List (String × Json)) (fields : Fields)
      (h : field ∈ pairs.foldl (fun fields pair => insert pair.1 pair.2 fields) fields) :
      field ∈ pairs ∨ field ∈ fields := by
    induction pairs generalizing fields with
    | nil => exact .inr h
    | cons pair rest ih =>
        rcases ih _ h with hrest | hinsert
        · exact .inl (List.mem_cons_of_mem _ hrest)
        · rcases mem_of_mem_insert hinsert with hnew | hold
          · exact .inl (List.mem_cons.mpr (.inl hnew))
          · exact .inr hold
  exact (hfold pairs [] h).resolve_right List.not_mem_nil

/-- Where no key occurs twice it does not matter from which end it is sought. -/
theorem last?_eq_get? (fields : Fields) (key : String) (h : (fields.map (·.1)).Nodup) :
    last? fields key = fields.get? key := by
  unfold last?
  induction fields with
  | nil => rfl
  | cons field rest ih =>
      obtain ⟨k, v⟩ := field
      rw [List.map_cons, List.nodup_cons] at h
      rw [List.reverse_cons, List.find?_append, Option.map_or, ih h.2]
      by_cases hk : key = k
      · subst hk
        have hnone : get? rest key = none :=
          get?_eq_none fun pair hpair he => h.1 (List.mem_map.mpr ⟨pair, hpair, he⟩)
        rw [get?] at hnone
        simp [hnone, get?]
      · have hne : (key == k) = false := by simpa using hk
        have hne' : (k == key) = false := by simpa using fun he => hk he.symm
        simp [get?, List.lookup_cons, hne, hne']

/-- Under a new key nothing is lost. -/
theorem insert_perm {fields : Fields} {key : String} (value : Json)
    (h : fields.get? key = none) : (insert key value fields).Perm ((key, value) :: fields) := by
  induction fields with
  | nil => rfl
  | cons field rest ih =>
      obtain ⟨k, v⟩ := field
      have hne : key ≠ k := by
        rintro rfl
        simp [get?] at h
      have hrest : get? rest key = none := by
        have hk : (key == k) = false := by simpa using hne
        simpa [get?, List.lookup_cons, hk] using h
      simp only [insert, hne, if_false]
      split
      · rfl
      · exact ((ih hrest).cons (k, v)).trans (.swap ..)

theorem foldl_insert_perm (pairs : List (String × Json)) (fields : Fields)
    (hnodup : (pairs.map (·.1)).Nodup) (hnew : ∀ pair ∈ pairs, fields.get? pair.1 = none) :
    (pairs.foldl (fun fields pair => insert pair.1 pair.2 fields) fields).Perm
      (fields ++ pairs) := by
  induction pairs generalizing fields with
  | nil => simp
  | cons pair rest ih =>
      rw [List.map_cons, List.nodup_cons] at hnodup
      have hrest : ∀ q ∈ rest, (insert pair.1 pair.2 fields).get? q.1 = none := by
        intro q hq
        have hne : q.1 ≠ pair.1 := fun he => hnodup.1 (he ▸ List.mem_map_of_mem hq)
        rw [get?_insert, if_neg hne]
        exact hnew q (List.mem_cons_of_mem _ hq)
      have hinsert := insert_perm pair.2 (hnew pair List.mem_cons_self)
      exact (ih _ hnodup.2 hrest).trans ((hinsert.append_right rest).trans
        List.perm_middle.symm)

/-! The order of the keys. -/

/-- Fields in ascending order of their keys, none of which is used twice. -/
def Ascending (fields : List (String × Json)) : Prop := fields.Pairwise (·.1 < ·.1)

theorem Ascending.nodup {fields : List (String × Json)} (h : Ascending fields) :
    (fields.map (·.1)).Nodup := by
  refine List.pairwise_map.mpr (h.imp fun {a b} hlt heq => ?_)
  rw [heq] at hlt
  exact String.lt_irrefl b.1 hlt

theorem ascending_insert {fields : Fields} (h : Ascending fields) (key : String) (value : Json) :
    Ascending (insert key value fields) := by
  induction fields with
  | nil => exact List.pairwise_singleton ..
  | cons first rest ih =>
      obtain ⟨k, v⟩ := first
      obtain ⟨hfirst, hrest⟩ := List.pairwise_cons.mp h
      simp only [insert]
      split
      · rename_i hlt
        refine List.pairwise_cons.mpr ⟨fun field hfield => ?_, h⟩
        rcases List.mem_cons.mp hfield with rfl | hfield
        · exact hlt
        · exact String.lt_trans hlt (hfirst field hfield)
      · split
        · rename_i heq
          subst heq
          exact List.pairwise_cons.mpr ⟨hfirst, hrest⟩
        · rename_i hnlt hne
          refine List.pairwise_cons.mpr ⟨fun field hfield => ?_, ih hrest⟩
          rcases mem_of_mem_insert hfield with rfl | hfield
          · exact Std.lt_of_le_of_ne (String.not_lt.mp hnlt) (Ne.symm hne)
          · exact hfirst field hfield

theorem ascending_ofPairs (pairs : List (String × Json)) : Ascending (ofPairs pairs) := by
  have hfold (fields : Fields) (h : Ascending fields) :
      Ascending (pairs.foldl (fun fields pair => insert pair.1 pair.2 fields) fields) := by
    induction pairs generalizing fields with
    | nil => exact h
    | cons pair rest ih => exact ih _ (ascending_insert h pair.1 pair.2)
  exact hfold [] .nil

/-- All that is inserted is there exactly if no key is used twice. -/
theorem ofPairs_perm_iff {pairs : List (String × Json)} :
    (ofPairs pairs).Perm pairs ↔ (pairs.map (·.1)).Nodup := by
  constructor
  · intro h
    exact (h.map (·.1)).nodup_iff.mp (ascending_ofPairs pairs).nodup
  · intro h
    simpa [ofPairs] using foldl_insert_perm pairs [] h fun _ _ => rfl

end QueryFilter.Fields
