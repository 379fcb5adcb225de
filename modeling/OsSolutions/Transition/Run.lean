import Mathlib.Data.List.Basic

/-! # Finite runs of a partial step function

A machine is a function from a state and an action to the next state, with `none`
for an action that is not enabled. Properties of runs are reduced here to properties
of one step. -/

namespace Transition

variable {σ α : Type*}

/-- Perform the actions in order. A disabled action leaves no final state. -/
def run (step : σ → α → Option σ) : σ → List α → Option σ
  | s, [] => some s
  | s, a :: as => (step s a).bind fun s' => run step s' as

/-- Every state visited by the run, the first one included, satisfies `P`. -/
def Always (step : σ → α → Option σ) (P : σ → Prop) : σ → List α → Prop
  | s, [] => P s
  | s, a :: as => P s ∧ ∀ s', step s a = some s' → Always step P s' as

/-- Every action of the run is taken in a state that allows it under `ok`. -/
def Meets (step : σ → α → Option σ) (ok : σ → α → Prop) : σ → List α → Prop
  | _, [] => True
  | s, a :: as => ∀ s', step s a = some s' → ok s a ∧ Meets step ok s' as

/-- The states reached from `s₀` by runs whose steps all satisfy `ok`. -/
inductive Reachable (step : σ → α → Option σ) (ok : σ → α → Prop) (s₀ : σ) : σ → Prop
  | refl : Reachable step ok s₀ s₀
  | tail {s s' : σ} {a : α} : Reachable step ok s₀ s → ok s a → step s a = some s' →
      Reachable step ok s₀ s'

/-- No restriction on the steps of a run. -/
def Free : σ → α → Prop := fun _ _ => True

variable {step : σ → α → Option σ} {ok : σ → α → Prop} {P : σ → Prop} {s₀ s s' : σ}

@[simp] theorem run_nil (s : σ) : run step s [] = some s := rfl

theorem run_cons (s : σ) (a : α) (as : List α) :
    run step s (a :: as) = (step s a).bind fun s' => run step s' as := rfl

theorem run_append (s : σ) (as bs : List α) :
    run step s (as ++ bs) = (run step s as).bind fun s' => run step s' bs := by
  induction as generalizing s with
  | nil => rfl
  | cons a as ih =>
      simp only [List.cons_append, run_cons, Option.bind_assoc]
      congr 1
      funext s'
      exact ih s'

/-- A run is extended by one enabled action at its end. -/
theorem run_concat {as : List α} {a : α} {t : σ} (h : run step s as = some t)
    (ha : step t a = some s') : run step s (as ++ [a]) = some s' := by
  rw [run_append, h]
  simp [run_cons, ha]

theorem Meets.cons {a : α} {as : List α} (hs : step s a = some s') (ha : ok s a)
    (h : Meets step ok s' as) : Meets step ok s (a :: as) := by
  intro t ht
  obtain rfl : s' = t := Option.some.inj (hs.symm.trans ht)
  exact ⟨ha, h⟩

/-- Actions that are allowed in every state. -/
theorem meets_of_mem {as : List α} (h : ∀ s, ∀ a ∈ as, ok s a) (s : σ) : Meets step ok s as := by
  induction as generalizing s with
  | nil => trivial
  | cons a as ih => exact fun s' _ => ⟨h s a (by simp), ih (fun t b hb => h t b (by simp [hb])) s'⟩

theorem meets_append (s : σ) (as bs : List α) :
    Meets step ok s (as ++ bs) ↔
      Meets step ok s as ∧ ∀ s', run step s as = some s' → Meets step ok s' bs := by
  induction as generalizing s with
  | nil => simp [Meets]
  | cons a as ih =>
      simp only [List.cons_append, Meets, ih, run_cons, Option.bind_eq_some_iff]
      constructor
      · intro h
        exact ⟨fun t ht => ⟨(h t ht).1, (h t ht).2.1⟩,
          fun s' ⟨t, ht, hr⟩ => (h t ht).2.2 s' hr⟩
      · intro h t ht
        exact ⟨(h.1 t ht).1, (h.1 t ht).2, fun s' hr => h.2 s' ⟨t, ht, hr⟩⟩

/-- What the condition says of the actions alone holds of every action of a whole run. -/
theorem Meets.of_mem {Q : α → Prop} {as : List α} (hm : Meets step (fun s a => Q a ∧ ok s a) s as)
    (hr : run step s as = some s') : ∀ a ∈ as, Q a := by
  induction as generalizing s with
  | nil => simp
  | cons a as ih =>
      obtain ⟨t, ht, hrest⟩ := Option.bind_eq_some_iff.mp hr
      obtain ⟨hok, hmeets⟩ := hm t ht
      rintro b (_ | ⟨_, hb⟩)
      · exact hok.1
      · exact ih hmeets hrest b hb

/-! ## Invariants -/

/-- What holds at the start and is kept by every allowed step holds of every
reachable state. -/
theorem Reachable.invariant (h : Reachable step ok s₀ s) (h₀ : P s₀)
    (hstep : ∀ s a s', P s → ok s a → step s a = some s' → P s') : P s := by
  induction h with
  | refl => exact h₀
  | tail _ hok hs ih => exact hstep _ _ _ ih hok hs

theorem Reachable.trans {t : σ} (h : Reachable step ok s₀ s) (k : Reachable step ok s t) :
    Reachable step ok s₀ t := by
  induction k with
  | refl => exact h
  | tail _ ha hs ih => exact .tail ih ha hs

/-- The invariant rule for one run, with the actions of the run at hand. -/
theorem run_invariant {as : List α} (h₀ : P s₀) (hm : Meets step ok s₀ as)
    (hstep : ∀ s, ∀ a ∈ as, ∀ s', P s → ok s a → step s a = some s' → P s')
    (hr : run step s₀ as = some s) : P s := by
  induction as generalizing s₀ with
  | nil =>
      obtain rfl : s₀ = s := by simpa using hr
      exact h₀
  | cons a as ih =>
      obtain ⟨t, ht, hrest⟩ := Option.bind_eq_some_iff.mp hr
      have hok := hm t ht
      exact ih (hstep s₀ a (by simp) t h₀ hok.1 ht) hok.2
        (fun s b hb => hstep s b (by simp [hb])) hrest

/-- Reachability is the existence of a run whose steps are all allowed. -/
theorem reachable_iff_run :
    Reachable step ok s₀ s ↔ ∃ as, run step s₀ as = some s ∧ Meets step ok s₀ as := by
  constructor
  · intro h
    induction h with
    | refl => exact ⟨[], rfl, trivial⟩
    | @tail t t' a _ ha hs ih =>
        obtain ⟨as, hrun, hmeets⟩ := ih
        refine ⟨as ++ [a], run_concat hrun hs, (meets_append _ _ _).mpr ⟨hmeets, ?_⟩⟩
        intro r hr
        obtain rfl : t = r := Option.some.inj (hrun.symm.trans hr)
        exact .cons hs ha trivial
  · rintro ⟨as, hrun, hmeets⟩
    induction as generalizing s₀ with
    | nil =>
        obtain rfl : s₀ = s := by simpa using hrun
        exact .refl
    | cons a as ih =>
        obtain ⟨t, ht, hrest⟩ := Option.bind_eq_some_iff.mp hrun
        exact (Reachable.tail .refl (hmeets t ht).1 ht).trans (ih hrest (hmeets t ht).2)

theorem reachable_of_run {as : List α} (h : run step s₀ as = some s) :
    Reachable step Free s₀ s :=
  reachable_iff_run.mpr ⟨as, h, meets_of_mem (fun _ _ _ => trivial) s₀⟩

/-! ## Exact conditions on a run -/

theorem Always.head {as : List α} (h : Always step P s as) : P s := by
  cases as with
  | nil => exact h
  | cons a as => exact h.1

theorem Always.imp {Q : σ → Prop} {as : List α} (h : Always step P s as)
    (hq : ∀ s, P s → Q s) : Always step Q s as := by
  induction as generalizing s with
  | nil => exact hq s h
  | cons a as ih => exact ⟨hq s h.1, fun s' hs => ih (h.2 s' hs)⟩

/-- A run whose steps are all allowed stays in the invariant. -/
theorem Meets.always {as : List α} (hm : Meets step ok s as) (h : P s)
    (hstep : ∀ s a s', P s → ok s a → step s a = some s' → P s') : Always step P s as := by
  induction as generalizing s with
  | nil => exact h
  | cons a as ih =>
      refine ⟨h, ?_⟩
      intro s' hs
      exact ih (hm s' hs).2 (hstep s a s' h (hm s' hs).1 hs)

/-- What the invariant and one condition on the steps give together holds of every step. -/
theorem Meets.imp {I : σ → Prop} {ok' : σ → α → Prop} {as : List α}
    (hm : Meets step ok s as) (hi : I s)
    (hstep : ∀ s a s', I s → ok s a → step s a = some s' → I s')
    (himp : ∀ s a, I s → ok s a → ok' s a) : Meets step ok' s as := by
  induction as generalizing s with
  | nil => trivial
  | cons a as ih =>
      intro s' hs
      obtain ⟨hok, hrest⟩ := hm s' hs
      exact ⟨himp s a hi hok, ih hrest (hstep s a s' hi hok hs)⟩

/-- A condition on the actions alone joins the condition on the steps. -/
theorem Meets.and_mem {Q : α → Prop} {as : List α} (hm : Meets step ok s as)
    (hq : ∀ a ∈ as, Q a) : Meets step (fun s a => ok s a ∧ Q a) s as := by
  induction as generalizing s with
  | nil => trivial
  | cons a as ih =>
      intro s' hs
      obtain ⟨hok, hrest⟩ := hm s' hs
      exact ⟨⟨hok, hq a (by simp)⟩, ih hrest fun b hb => hq b (by simp [hb])⟩

theorem meets_congr {ok' : σ → α → Prop} (h : ∀ s a, ok s a ↔ ok' s a) (s : σ)
    (as : List α) : Meets step ok s as ↔ Meets step ok' s as := by
  induction as generalizing s with
  | nil => exact Iff.rfl
  | cons a as ih => simp only [Meets, h, ih]

/-- If a step out of a state with `P` and `I` keeps `P` exactly when `ok` allows it, and an
allowed step keeps `I`, then `P` holds along a run exactly when `ok` allows all its steps. -/
theorem always_iff_meets_of {I : σ → Prop}
    (hstep : ∀ s a s', I s → P s → step s a = some s' → (P s' ↔ ok s a))
    (hI : ∀ s a s', I s → P s → ok s a → step s a = some s' → I s')
    (hi : I s) (h : P s) (as : List α) : Always step P s as ↔ Meets step ok s as := by
  induction as generalizing s with
  | nil => exact ⟨fun _ => trivial, fun _ => h⟩
  | cons a as ih =>
      constructor
      · intro ha s' hs
        have hs' : P s' := (ha.2 s' hs).head
        have hok := (hstep s a s' hi h hs).mp hs'
        exact ⟨hok, (ih (hI s a s' hi h hok hs) hs').mp (ha.2 s' hs)⟩
      · intro hm
        refine ⟨h, ?_⟩
        intro s' hs
        have hok := (hm s' hs).1
        have hs' : P s' := (hstep s a s' hi h hs).mpr hok
        exact (ih (hI s a s' hi h hok hs) hs').mpr (hm s' hs).2

theorem always_iff_meets (hstep : ∀ s a s', P s → step s a = some s' → (P s' ↔ ok s a))
    (h : P s) (as : List α) : Always step P s as ↔ Meets step ok s as :=
  always_iff_meets_of (I := fun _ => True) (fun s a s' _ => hstep s a s')
    (fun _ _ _ _ _ _ _ => trivial) trivial h as

end Transition
