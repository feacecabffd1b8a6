/-!
How a computation that may fail succeeds, and how it fails.
-/

namespace QueryFilter

variable {ε ε' α β : Type}

theorem ok_bind (a : α) (f : α → Except ε β) : Except.ok a >>= f = f a := rfl

theorem bind_eq_ok {x : Except ε α} {f : α → Except ε β} {b : β} :
    x >>= f = .ok b ↔ ∃ a, x = .ok a ∧ f a = .ok b := by
  cases x <;> simp [bind, Except.bind]

theorem bind_eq_error {x : Except ε α} {f : α → Except ε β} {e : ε} :
    x >>= f = .error e ↔ x = .error e ∨ ∃ a, x = .ok a ∧ f a = .error e := by
  cases x <;> simp [bind, Except.bind]

/-- What is made of a result in the end cannot fail any more. -/
theorem bind_pure_eq_error {x : Except ε α} {f : α → β} {e : ε} :
    (x >>= fun a => pure (f a)) = .error e ↔ x = .error e := by
  rw [bind_eq_error]
  exact or_iff_left (by rintro ⟨a, -, ⟨⟩⟩)

theorem map_eq_ok {x : Except ε α} {f : α → β} {b : β} :
    f <$> x = .ok b ↔ ∃ a, x = .ok a ∧ f a = b := by
  cases x <;> simp [Functor.map, Except.map]

theorem mapError_eq_ok {x : Except ε α} {f : ε → ε'} {a : α} :
    x.mapError f = .ok a ↔ x = .ok a := by
  cases x with
  | ok b => exact ⟨fun h => by cases h; rfl, fun h => by cases h; rfl⟩
  | error e => exact ⟨nofun, nofun⟩

/-- A check that fails before anything else is done. -/
theorem guard_eq_ok {c : Prop} [Decidable c] {e : ε} {next : PUnit → Except ε α} {a : α} :
    (if c then throw e >>= next else next ⟨⟩) = .ok a ↔ ¬c ∧ next ⟨⟩ = .ok a := by
  split
  · rename_i h
    simp [h, throw, throwThe, MonadExceptOf.throw, bind, Except.bind]
  · rename_i h
    simp [h]

end QueryFilter
