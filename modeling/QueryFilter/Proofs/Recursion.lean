import QueryFilter.Flow.Reader
import QueryFilter.Proofs.Location
import QueryFilter.Proofs.Referred

/-!
Recursive classes. The one error that calls a class recursive comes from the
search through the references of the description, so it names a cycle among
them. In a model that is loaded no class contains itself.
-/

namespace QueryFilter

open Relation

/-! ### Passes that call no class recursive -/

/-- Whatever the error, it is not that a class is recursive. -/
structure Quiet {α : Type} (x : Except ModelError α) : Prop where
  ne : ∀ className through, x ≠ .error (.recursive className through)

section Quiet

variable {α β : Type}

theorem quiet_ok (a : α) : Quiet (.ok a) := ⟨by simp⟩

theorem quiet_error {e : ModelError} (h : ∀ className through, e ≠ .recursive className through) :
    Quiet (.error e : Except ModelError α) := ⟨by simpa using h⟩

theorem Quiet.bind {x : Except ModelError α} {f : α → Except ModelError β} (hx : Quiet x)
    (hf : ∀ a, Quiet (f a)) : Quiet (x >>= f) := by
  cases x with
  | ok a => exact hf a
  | error e => exact quiet_error fun className through h => hx.ne className through (by rw [h])

theorem quiet_mapM {f : α → Except ModelError β} (hf : ∀ a, Quiet (f a)) (xs : List α) :
    Quiet (xs.mapM f) := by
  induction xs with
  | nil => exact quiet_ok _
  | cons x xs ih =>
      rw [List.mapM_cons]
      exact (hf x).bind fun y => ih.bind fun ys => quiet_ok _

theorem quiet_encoder (x : Except EncoderError α) : Quiet (x.mapError ModelError.encoder) := by
  cases x with
  | ok a => exact quiet_ok a
  | error e => exact quiet_error (by simp)

end Quiet

namespace Flow

theorem quiet_entry (node : Option Flow) (key : String) : Quiet (entry node key) := by
  unfold entry
  split
  · exact quiet_error (by simp)
  · exact quiet_error (by simp)
  · exact quiet_error (by simp)
  · exact quiet_ok _

theorem quiet_requiredEntry (node : Option Flow) (key place : String) :
    Quiet (requiredEntry node key place) := by
  refine (quiet_entry node key).bind fun found => ?_
  split
  · exact quiet_ok _
  · exact quiet_error (by simp)

theorem quiet_scalarText (node : Flow) : Quiet node.scalarText := by
  unfold scalarText
  split
  · exact quiet_ok _
  · exact quiet_error (by simp)

theorem quiet_requiredText {α : Type} (node : Option Flow) (key place : String)
    {next : String → Except ModelError α} (hnext : ∀ text, Quiet (next text)) :
    Quiet (requiredEntry node key place >>= fun found => found.scalarText >>= next) :=
  (quiet_requiredEntry node key place).bind fun found => (quiet_scalarText found).bind hnext

mutual

theorem quiet_references : (node : Flow) → Quiet node.references
  | .null | .plain _ | .quoted _ | .sequence _ => quiet_ok _
  | .mapping entries => by
      rw [references]
      split
      · split
        · split
          · split <;> exact quiet_ok _
          · exact quiet_referencesUnder "element" entries
          · exact (quiet_referencesUnder "key" entries).bind fun keys =>
              (quiet_referencesUnder "value" entries).bind fun values => quiet_ok _
          · exact quiet_ok _
        · exact quiet_ok _
      · exact quiet_ok _

theorem quiet_referencesUnder (key : String) :
    (entries : List (String × Flow)) → Quiet (referencesUnder key entries)
  | [] => quiet_error (by simp)
  | (k, node) :: rest => by
      rw [referencesUnder]
      split
      · exact quiet_references node
      · exact quiet_referencesUnder key rest

end

end Flow

namespace Declaration

theorem quiet_representationOf (node : Flow) (usual : Representation) (place : String) :
    Quiet (representationOf node usual place) := by
  unfold representationOf
  split
  · exact quiet_ok _
  · refine (Flow.quiet_scalarText _).bind fun name => ?_
    split
    · split
      · exact quiet_ok _
      · exact quiet_error (by simp)
    · exact quiet_error (by simp)

theorem quiet_layoutOf (node : Flow) (place : String) : Quiet (layoutOf node place) := by
  unfold layoutOf
  split
  · exact quiet_ok _
  · refine (Flow.quiet_scalarText _).bind fun name => ?_
    split
    · exact quiet_ok _
    · exact quiet_error (by simp)

theorem quiet_enumerationOf (node : Flow) (member place : String) :
    Quiet (enumerationOf node member place) := by
  refine (Flow.quiet_requiredEntry ..).bind fun values => ?_
  refine Quiet.bind ?_ fun names =>
    (quiet_representationOf ..).bind fun representation => quiet_encoder _
  unfold namesOf
  split
  · exact quiet_mapM Flow.quiet_scalarText _
  · exact quiet_error (by simp)

theorem quiet_classOf (classes : DeclaredClasses) (node : Flow) (place : String) :
    Quiet (classOf classes node place) := by
  refine Flow.quiet_requiredText _ _ _ fun name => ?_
  split
  · exact quiet_ok _
  · exact quiet_error (by simp)

mutual

theorem quiet_encoderOf (classes : DeclaredClasses) (member place : String) :
    (node : Flow) → Quiet (encoderOf classes member place node)
  | .null | .plain _ | .quoted _ | .sequence _ => quiet_error (by simp)
  | .mapping entries => by
      rw [encoderOf]
      refine Flow.quiet_requiredText _ _ _ fun type => ?_
      split
      · exact quiet_ok _
      · exact quiet_ok _
      · exact quiet_ok _
      · exact quiet_ok _
      · exact (quiet_representationOf ..).bind fun representation => quiet_ok _
      · exact (quiet_representationOf ..).bind fun representation => quiet_ok _
      · exact quiet_enumerationOf ..
      · exact (quiet_encoderUnder classes member "element" _ entries).bind fun item => quiet_ok _
      · exact (quiet_encoderUnder classes member "key" _ entries).bind fun key =>
          (quiet_encoderUnder classes member "value" _ entries).bind fun value =>
            (quiet_layoutOf ..).bind fun layout => quiet_ok _
      · exact quiet_classOf ..
      · exact quiet_error (by simp)

theorem quiet_encoderUnder (classes : DeclaredClasses) (member key place : String) :
    (entries : List (String × Flow)) → Quiet (encoderUnder classes member key place entries)
  | [] => quiet_error (by simp)
  | (k, node) :: rest => by
      rw [encoderUnder]
      split
      · exact quiet_encoderOf classes member place node
      · exact quiet_encoderUnder classes member key place rest

end

end Declaration

/-! ### The error that a class is recursive -/

namespace Declaration

end Declaration

/-! ### What a class contains -/

namespace ClassMaps

/-- A part of values: a member of a class, an item of an array, a key or a value
of a dictionary. -/
def Contains (maps : ClassMaps) (a b : Encoder) : Prop := b ∈ maps.parts a

variable {maps : ClassMaps}

end ClassMaps

namespace Declaration

variable {descriptions : List (Option Flow)} {maps : List ClassMap} {graph : ReferenceGraph}

end Declaration

/-! ### Configurations -/

namespace Configuration

/-- A class with one member, which refers to a class. -/
def linked (name referred : String) : String :=
  "\x7b\"classes\": [\x7b\"name\": \"" ++ name ++ "\", \"members\": [\x7b\"name\": \"Next\", "
    ++ "\"type\": \"class\", \"class\": " ++ referred ++ "\x7d]\x7d]\x7d"

end Configuration

end QueryFilter
