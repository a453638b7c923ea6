/-!
# Steps that can fail

What is known when a chain of fallible steps has come to its end.
-/

namespace LocaleTidy

variable {ε ε' α β : Type}

theorem bind_eq_ok {step : Except ε α} {next : α → Except ε β} {result : β} :
    step >>= next = .ok result ↔ ∃ value, step = .ok value ∧ next value = .ok result := by
  cases step with
  | error fault => simp [bind, Except.bind]
  | ok value => simp [bind, Except.bind]

theorem bind_eq_error {step : Except ε α} {next : α → Except ε β} {fault : ε} :
    step >>= next = .error fault ↔
      step = .error fault ∨ ∃ value, step = .ok value ∧ next value = .error fault := by
  cases step with
  | error cause => simp [bind, Except.bind]
  | ok value => simp [bind, Except.bind]

theorem mapError_eq_ok {step : Except ε α} {wrap : ε → ε'} {result : α} :
    step.mapError wrap = .ok result ↔ step = .ok result := by
  cases step with
  | error fault =>
      have hmap : (Except.error fault : Except ε α).mapError wrap = .error (wrap fault) := rfl
      simp [hmap]
  | ok value =>
      have hmap : (Except.ok value : Except ε α).mapError wrap = .ok value := rfl
      simp [hmap]

theorem mapError_eq_error {step : Except ε α} {wrap : ε → ε'} {fault : ε'} :
    step.mapError wrap = .error fault ↔ ∃ cause, step = .error cause ∧ fault = wrap cause := by
  cases step with
  | error cause =>
      have hmap : (Except.error cause : Except ε α).mapError wrap = .error (wrap cause) := rfl
      simp [hmap, eq_comm]
  | ok value =>
      have hmap : (Except.ok value : Except ε α).mapError wrap = .ok value := rfl
      simp [hmap]

theorem pure_eq_ok {value result : α} :
    (pure value : Except ε α) = .ok result ↔ value = result := by
  simp [pure, Except.pure]

theorem eq_ok_of_mem_toOption {step : Except ε α} {result : α} (h : result ∈ step.toOption) :
    step = .ok result := by
  cases step with
  | error fault => cases h
  | ok value =>
      cases h
      rfl

theorem eq_error_of_toOption_isNone {step : Except ε α} (h : step.toOption.isNone) :
    ∃ fault, step = .error fault := by
  cases step with
  | error fault => exact ⟨fault, rfl⟩
  | ok value => cases h

/-! A step that goes on with a state of its own. -/

variable {σ : Type} {run : Except ε α × σ}

theorem pair_eq_of_mem_toOption {result : α} (h : result ∈ run.1.toOption) :
    run = (.ok result, run.2) :=
  Prod.ext (eq_ok_of_mem_toOption h) rfl

theorem exists_pair_eq_of_isNone (h : run.1.toOption.isNone) :
    ∃ fault, run = (.error fault, run.2) := by
  obtain ⟨fault, hfault⟩ := eq_error_of_toOption_isNone h
  exact ⟨fault, Prod.ext hfault rfl⟩

end LocaleTidy
