import OsSolutions.Verification.Slot.Atomicity

/-! # Conservation of units

Without resets the count is what the semaphore was opened with, plus the posts that
succeeded, minus the waits that did. -/

namespace OsSolutions.Slot

open Transition

variable {P : Type*}

/-- The call takes a unit when it returns 0. -/
def takesUnit : Call → Bool
  | .wait _ | .tryWait => true
  | _ => false

/-- The calls of `sem_post` that returned 0. -/
def posted (returned : List (Return P)) : ℕ :=
  returned.countP fun r => r.call = .post ∧ r.val = 0

/-- The calls of `sem_wait` and `sem_try_wait` that returned 0. -/
def taken (returned : List (Return P)) : ℕ :=
  returned.countP fun r => takesUnit r.call ∧ r.val = 0

/-- No process calls `sem_reset`. -/
def NeverReset (_ : State P) (a : Act P) : Prop := a.isReset = false

/-- The ledger of a semaphore opened with `init` and `maxVal`. -/
structure Conserved (init maxVal : Int32) (st : State P) : Prop where
  balance : st.sem.count.toInt = init.toInt + posted st.returned - taken st.returned
  maxVal_eq : st.sem.maxVal = maxVal
  inRange : st.sem.InRange
  noReset : ∀ p, (st.pc p).inReset = false

@[simp] theorem posted_cons (r : Return P) (returned : List (Return P)) :
    posted (r :: returned) =
      posted returned + if r.call = .post ∧ r.val = 0 then 1 else 0 := by
  simp [posted, List.countP_cons]

@[simp] theorem taken_cons (r : Return P) (returned : List (Return P)) :
    taken (r :: returned) =
      taken returned + if takesUnit r.call = true ∧ r.val = 0 then 1 else 0 := by
  simp [taken, List.countP_cons]

variable [DecidableEq P] {pid : P → Int32} {init maxVal : Int32} {st st' : State P} {a : Act P}

theorem inReset_goto {p : P} {c : Pc} (h : ∀ q, (st.pc q).inReset = false)
    (hc : c.inReset = false) (q : P) : ((st.goto p c).pc q).inReset = false := by
  by_cases hq : q = p
  · subst q
    rwa [State.goto_pc_self]
  · rw [State.goto_pc_of_ne c hq]
    exact h q

omit [DecidableEq P] in
theorem inReset_wakeIf (h : ∀ q, (st.pc q).inReset = false) (wake : Bool) (q : P) :
    ((st.wakeIf wake).pc q).inReset = false := by
  cases wake with
  | false => exact h q
  | true =>
      have hq := h q
      simp only [State.wakeIf, if_true, wakeup]
      split
      · rfl
      · exact hq

theorem toInt_pred {a : Int32} (h : 0 < a) : (a - 1).toInt = a.toInt - 1 := by
  have hhigh := a.toInt_lt
  rw [Int32.lt_iff_toInt_lt] at h
  have hzero : (0 : Int32).toInt = 0 := rfl
  rw [Int32.toInt_sub, Int.bmod_eq_of_le] <;> simp <;> omega

/-! ## The sections -/

/-- A call that returns without a unit moved. -/
theorem Conserved.finish_refused (h : Conserved init maxVal st) (p : P) (call : Call) {val : ℤ}
    (hval : val ≠ 0) : Conserved init maxVal (st.finish p call val) where
  balance := by
    simpa [hval] using h.balance
  maxVal_eq := h.maxVal_eq
  inRange := h.inRange
  noReset := inReset_goto h.noReset rfl

theorem Conserved.finish_taken (h : Conserved init maxVal st) (p : P) {call : Call}
    (hcall : takesUnit call = true) (hpos : 0 < st.sem.count) :
    Conserved init maxVal
      (({ st with sem := { st.sem with count := st.sem.count - 1 } } : State P).finish p call 0)
    where
  balance := by
    have hnot : call ≠ .post := by
      intro heq
      rw [heq] at hcall
      cases hcall
    have hbal := h.balance
    simp [hcall, hnot, toInt_pred hpos]
    omega
  maxVal_eq := h.maxVal_eq
  inRange := by
    have hrange := semTryWait_inRange h.inRange
    simpa [semTryWait, hpos] using hrange
  noReset := inReset_goto h.noReset rfl

theorem Conserved.finish_posted (h : Conserved init maxVal st) (p : P)
    (hne : st.sem.count ≠ st.sem.maxVal) (wake : Bool) :
    Conserved init maxVal
      ((({ st with sem := { st.sem with count := st.sem.count + 1 } } : State P).wakeIf
        wake).finish p .post 0) where
  balance := by
    have hlt : st.sem.count < st.sem.maxVal := Int32.lt_of_le_of_ne h.inRange.2 hne
    have hbal := h.balance
    simp [takesUnit, Sem.toInt_succ hlt]
    omega
  maxVal_eq := by simpa using h.maxVal_eq
  inRange := by
    have hrange := semPost_inRange h.inRange
    simpa [semPost, hne] using hrange
  noReset := by
    apply inReset_goto _ rfl
    apply inReset_wakeIf
    exact h.noReset

theorem Conserved.goto (h : Conserved init maxVal st) (p : P) {c : Pc} (hc : c.inReset = false) :
    Conserved init maxVal (st.goto p c) :=
  ⟨h.balance, h.maxVal_eq, h.inRange, inReset_goto h.noReset hc⟩

/-! ## Runs -/

theorem step_conserved (h : Conserved init maxVal st) (hok : NeverReset st a)
    (hs : step pid st a = some st') : Conserved init maxVal st' := by
  cases step_cases hs with
  | taken hp hc => exact h.finish_taken _ rfl hc
  | givenUp hp hc hk => exact h.finish_refused _ _ (by decide)
  | sleeps hp hc hk => exact h.goto _ rfl
  | tryTaken hp hc => exact h.finish_taken _ rfl hc
  | tryFailed hp hc => exact h.finish_refused _ _ (by decide)
  | posted hp hm => exact h.finish_posted _ hm _
  | postRefused hp hm => exact h.finish_refused _ _ (by decide)
  | resetRefused hp hg => cases hok
  | resetEnters hp hg => cases hok
  | @countSet p _ _ hp => simpa [hp, Pc.inReset] using h.noReset p
  | @maxRaises p _ _ hp hm => simpa [hp, Pc.inReset] using h.noReset p
  | @maxStays p _ _ hp hm => simpa [hp, Pc.inReset] using h.noReset p
  | @maxSet p _ _ hp => simpa [hp, Pc.inReset] using h.noReset p
  | @killed p =>
      have hkeep := h.noReset p
      have hgoto := h.goto p (c := if st.pc p = .waiting true then .waiting false else st.pc p)
        (by split <;> simp_all [Pc.inReset])
      exact ⟨hgoto.balance, hgoto.maxVal_eq, hgoto.inRange, hgoto.noReset⟩

/-- In every state reached without resets from a semaphore opened with `init` and `maxVal`,
each unit is accounted for and the count is in range. -/
theorem conserved_of_reachable (pid : P → Int32) (x : Sem) (name : CString)
    (init maxVal creator : Int32) (hinit : 0 ≤ init) (hmax : init ≤ maxVal) (st : State P)
    (h : Reachable (step pid) NeverReset (start (x.opened name init maxVal creator)) st) :
    st.sem.count.toInt = init.toInt + posted st.returned - taken st.returned ∧
      0 ≤ st.sem.count ∧ st.sem.count ≤ maxVal := by
  have hcons : Conserved init maxVal st := by
    apply h.invariant
    · exact ⟨by simp [start, posted, taken], rfl, ⟨hinit, hmax⟩, fun _ => rfl⟩
    · exact fun _ _ _ hc hok hs => step_conserved hc hok hs
  exact ⟨hcons.balance, hcons.inRange.1, hcons.maxVal_eq ▸ hcons.inRange.2⟩

/-- Two waiters on one unit, a kill and a post: one wait and the post took effect. -/
theorem conserved_of_reachable_killed :
    ∃ st : State (Fin 2), posted st.returned = 1 ∧ taken st.returned = 1 ∧
      st.sem.count.toInt = (1 : Int32).toInt + posted st.returned - taken st.returned ∧
        0 ≤ st.sem.count ∧ st.sem.count ≤ 1 := by
  refine ⟨_, ?_, ?_, conserved_of_reachable (fun _ => 1) Sem.zero ⟨[115], by decide⟩ 1 1 1
    (by decide) (by decide) _ (reachable_iff_run.mpr
      ⟨[.wait 0, .wait 1, .kill 1, .resume 1, .post 0], rfl, ?_⟩)⟩
  · decide
  · decide
  · exact .cons rfl rfl (.cons rfl rfl (.cons rfl rfl (.cons rfl rfl (.cons rfl rfl trivial))))

end OsSolutions.Slot
