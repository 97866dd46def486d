/-!
# Results of what may fail

Assembling, loading and linking give a result or errors. These lemmas take apart a success or an
error that was composed of others, and name the result of a success that evaluation has shown.
-/

namespace PageMachine

/-- A sequence succeeds only if its first part does. -/
theorem exists_of_bind_eq_ok {ε α β : Type} {first : Except ε α} {next : α → Except ε β} {value : β}
    (h : first >>= next = .ok value) : ∃ start, first = .ok start ∧ next start = .ok value := by
  cases first with
  | error error => cases h
  | ok start => exact ⟨start, rfl, h⟩

/-- A sequence fails where its first part does, or behind it. -/
theorem error_or_of_bind_eq_error {ε α β : Type} {first : Except ε α} {next : α → Except ε β}
    {error : ε} (h : first >>= next = .error error) :
    first = .error error ∨ ∃ start, first = .ok start ∧ next start = .error error := by
  cases first with
  | error other => exact .inl (congrArg Except.error (Except.error.inj h))
  | ok start => exact .inr ⟨start, rfl, h⟩

/-- What stands behind a check succeeds only if nothing was wrong. -/
theorem eq_ok_of_guard {ε α β : Type} {wrong : Prop} [Decidable wrong] {error : ε} {value : β}
    {next : α → Except ε β} {rest : Except ε β}
    (h : (if wrong then throw error >>= next else rest) = .ok value) :
    ¬wrong ∧ rest = .ok value := by
  split at h
  · cases h
  · next hright => exact ⟨hright, h⟩

/-- Rewording an error does not make a success. -/
theorem eq_ok_of_mapError {ε δ α : Type} {f : ε → δ} {result : Except ε α} {value : α}
    (h : result.mapError f = .ok value) : result = .ok value := by
  cases result with
  | error error => cases h
  | ok other => exact congrArg Except.ok (Except.ok.inj h)

/-- The result of a success. -/
def okValue {ε α : Type} : (result : Except ε α) → result.isOk = true → { value // result = .ok value }
  | .ok value, _ => ⟨value, rfl⟩

end PageMachine
