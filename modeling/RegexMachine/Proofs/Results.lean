/-!
# Results of steps that may fail

Two steps in a row give a result if both do. Telling an error in another way leaves a result as it is.
-/

namespace RegexMachine

section

variable {Error Value Result : Type}

theorem ok_of_bind {computed : Except Error Value} {next : Value → Except Error Result}
    {result : Result} (bound : (computed >>= next) = .ok result) :
    ∃ value, computed = .ok value ∧ next value = .ok result := by
  cases computed with
  | error error => contradiction
  | ok value => exact ⟨value, rfl, bound⟩

theorem bind_ok_iff (computed : Except Error Value) (next : Value → Except Error Result) :
    (∃ result, (computed >>= next) = .ok result) ↔
      ∃ value, computed = .ok value ∧ ∃ result, next value = .ok result := by
  constructor
  · intro bound
    obtain ⟨result, bound⟩ := bound
    obtain ⟨value, known, following⟩ := ok_of_bind bound
    exact ⟨value, known, result, following⟩
  · intro both
    obtain ⟨value, rfl, known⟩ := both
    exact known

theorem bind_pure_ok_iff (computed : Except Error Value) (next : Value → Result) :
    (∃ result, (computed >>= fun value => pure (next value)) = .ok result) ↔
      ∃ value, computed = .ok value := by
  rw [bind_ok_iff]
  simp [pure, Except.pure]

end

section

variable {First Second Value : Type} (label : First → Second) (result : Except First Value)

theorem map_error_ok_iff (value : Value) : result.mapError label = .ok value ↔ result = .ok value := by
  cases result with
  | ok found =>
      show Except.ok found = .ok value ↔ Except.ok found = .ok value
      rw [Except.ok.injEq, Except.ok.injEq]
  | error first =>
      constructor
      · intro labelled
        contradiction
      · intro same
        contradiction

theorem map_error_error_iff (second : Second) :
    result.mapError label = .error second ↔ ∃ first, result = .error first ∧ label first = second := by
  constructor
  · intro labelled
    cases result with
    | ok found => contradiction
    | error first => exact ⟨first, rfl, Except.error.inj labelled⟩
  · rintro ⟨first, rfl, rfl⟩
    rfl

end

end RegexMachine
