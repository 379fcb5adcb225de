import OsSolutions.Transition.Run

/-! # Simulation of one machine by another

A relation between the states of two machines that take the same actions. -/

namespace Transition

variable {σ τ α β : Type*} {step₁ : σ → α → Option σ} {step₂ : τ → α → Option τ}
  {R : σ → τ → Prop} {s : σ} {t : τ}

/-- If every step of the first machine is matched by the second one, so is every run. -/
theorem run_simulation
    (hstep : ∀ s t a s', R s t → step₁ s a = some s' → ∃ t', step₂ t a = some t' ∧ R s' t')
    (h : R s t) {as : List α} {s' : σ} (hr : run step₁ s as = some s') :
    ∃ t', run step₂ t as = some t' ∧ R s' t' := by
  induction as generalizing s t with
  | nil =>
      obtain rfl : s = s' := by simpa using hr
      exact ⟨t, rfl, h⟩
  | cons a as ih =>
      obtain ⟨s₁, hs, hrest⟩ := Option.bind_eq_some_iff.mp hr
      obtain ⟨t₁, ht, h₁⟩ := hstep s t a s₁ h hs
      obtain ⟨t', hrun, h'⟩ := ih h₁ hrest
      exact ⟨t', by rw [run_cons, ht]; exact hrun, h'⟩

/-- If besides neither machine moves when the other one cannot, then what the relation makes
equal is equal after the same actions. -/
theorem run_map_eq {obs₁ : σ → β} {obs₂ : τ → β}
    (hstep : ∀ s t a s', R s t → step₁ s a = some s' → ∃ t', step₂ t a = some t' ∧ R s' t')
    (hstuck : ∀ s t a, R s t → step₁ s a = none → step₂ t a = none)
    (hobs : ∀ s t, R s t → obs₁ s = obs₂ t) (h : R s t) (as : List α) :
    (run step₁ s as).map obs₁ = (run step₂ t as).map obs₂ := by
  induction as generalizing s t with
  | nil => exact congrArg some (hobs s t h)
  | cons a as ih =>
      cases hs : step₁ s a with
      | none => rw [run_cons, run_cons, hs, hstuck s t a h hs]; rfl
      | some s₁ =>
          obtain ⟨t₁, ht, h₁⟩ := hstep s t a s₁ h hs
          rw [run_cons, run_cons, hs, ht]
          exact ih h₁

/-- Each allowed step of the first machine is matched by some steps of the second one with the
same visible part, and so is every run. -/
theorem run_refines {γ : Type*} {ok : σ → α → Prop} {vis₁ : α → List γ} {vis₂ : β → List γ}
    {step₂ : τ → β → Option τ}
    (hstep : ∀ s t a s', R s t → ok s a → step₁ s a = some s' →
      ∃ bs t', run step₂ t bs = some t' ∧ bs.flatMap vis₂ = vis₁ a ∧ R s' t')
    (h : R s t) {as : List α} {s' : σ} (hm : Meets step₁ ok s as) (hr : run step₁ s as = some s') :
    ∃ bs t', run step₂ t bs = some t' ∧ bs.flatMap vis₂ = as.flatMap vis₁ ∧ R s' t' := by
  induction as generalizing s t with
  | nil =>
      obtain rfl : s = s' := by simpa using hr
      exact ⟨[], t, rfl, rfl, h⟩
  | cons a as ih =>
      obtain ⟨s₁, hs, hrest⟩ := Option.bind_eq_some_iff.mp hr
      obtain ⟨hok, hmeets⟩ := hm s₁ hs
      obtain ⟨bs, t₁, hb, hvis, h₁⟩ := hstep s t a s₁ h hok hs
      obtain ⟨cs, t', hc, hrestvis, h'⟩ := ih h₁ hmeets hrest
      refine ⟨bs ++ cs, t', ?_, ?_, h'⟩
      · rw [run_append, hb]
        exact hc
      · rw [List.flatMap_append, hvis, hrestvis, List.flatMap_cons]

end Transition
