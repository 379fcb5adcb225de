import OsSolutions.Model.SlotMachine
import OsSolutions.Transition.Run
import Mathlib.Tactic.Common

/-! # The steps of the machine of one semaphore, branch by branch -/

namespace OsSolutions.Slot

variable {P : Type*} [DecidableEq P] {pid : P → Int32} {st st' : State P} {a : Act P}

/-! ## Program counters after a write -/

namespace State

@[simp] theorem goto_sem (p : P) (c : Pc) : (st.goto p c).sem = st.sem := rfl

@[simp] theorem goto_returned (p : P) (c : Pc) : (st.goto p c).returned = st.returned := rfl

@[simp] theorem goto_pc_self (p : P) (c : Pc) : (st.goto p c).pc p = c := by simp [goto]

theorem goto_pc_of_ne {p q : P} (c : Pc) (h : q ≠ p) : (st.goto p c).pc q = st.pc q := by
  simp [goto, h]

@[simp] theorem finish_sem (p : P) (call : Call) (val : ℤ) :
    (st.finish p call val).sem = st.sem := rfl

@[simp] theorem finish_returned (p : P) (call : Call) (val : ℤ) :
    (st.finish p call val).returned = ⟨p, call, val⟩ :: st.returned := rfl

@[simp] theorem finish_pc (p : P) (call : Call) (val : ℤ) :
    (st.finish p call val).pc = (st.goto p .idle).pc := rfl

omit [DecidableEq P] in
@[simp] theorem wakeIf_sem (wake : Bool) : (st.wakeIf wake).sem = st.sem := by
  unfold wakeIf
  split <;> rfl

omit [DecidableEq P] in
@[simp] theorem wakeIf_returned (wake : Bool) : (st.wakeIf wake).returned = st.returned := by
  unfold wakeIf
  split <;> rfl

omit [DecidableEq P] in
theorem wakeIf_false : st.wakeIf false = st := rfl

end State

omit [DecidableEq P] in
theorem wakeup_ne_asleep (pc : P → Pc) (p : P) : wakeup pc p ≠ .waiting true := by
  unfold wakeup
  split
  · simp
  · rename_i c hc
    exact hc true

/-! ## Inversion -/

/-- The process takes a pass of the loop of `sem_wait`. -/
def Passes (st : State P) (a : Act P) (p : P) : Prop :=
  (a = .wait p ∧ st.pc p = .idle) ∨ (a = .resume p ∧ st.pc p = .waiting false)

/-- One rule for each way through the sections of the four calls. -/
inductive Step (pid : P → Int32) (st : State P) : Act P → State P → Prop
  | taken {a p} : Passes st a p → 0 < st.sem.count →
      Step pid st a ({ st with sem := { st.sem with count := st.sem.count - 1 } }.finish p
        (.wait (st.killed p)) 0)
  | givenUp {a p} : Passes st a p → ¬ 0 < st.sem.count → st.killed p = true →
      Step pid st a (st.finish p (.wait true) (-1))
  | sleeps {a p} : Passes st a p → ¬ 0 < st.sem.count → st.killed p = false →
      Step pid st a (st.goto p (.waiting true))
  | tryTaken {p} : st.pc p = .idle → 0 < st.sem.count →
      Step pid st (.tryWait p) ({ st with sem := { st.sem with count := st.sem.count - 1 } }.finish
        p .tryWait 0)
  | tryFailed {p} : st.pc p = .idle → ¬ 0 < st.sem.count →
      Step pid st (.tryWait p) (st.finish p .tryWait (-1))
  | posted {p} : st.pc p = .idle → st.sem.count ≠ st.sem.maxVal →
      Step pid st (.post p) (({ st with sem := { st.sem with count := st.sem.count + 1 } }.wakeIf
        (st.sem.count + 1 = 1)).finish p .post 0)
  | postRefused {p} : st.pc p = .idle → st.sem.count = st.sem.maxVal →
      Step pid st (.post p) (st.finish p .post (-2))
  | resetRefused {p newVal newMaxVal} : st.pc p = .idle →
      semResetRefuses (pid p) newVal newMaxVal st.sem = true →
      Step pid st (.reset p newVal newMaxVal)
        (st.finish p (.reset (pid p) newVal newMaxVal) (-1))
  | resetEnters {p newVal newMaxVal} : st.pc p = .idle →
      semResetRefuses (pid p) newVal newMaxVal st.sem = false →
      Step pid st (.reset p newVal newMaxVal)
        (st.goto p (if 0 ≤ newVal then .resetCount newVal newMaxVal
          else .resetTest newVal newMaxVal))
  | countSet {p newVal newMaxVal} : st.pc p = .resetCount newVal newMaxVal →
      Step pid st (.resume p) (({ st with sem := { st.sem with count := newVal } }.wakeIf
        (0 < newVal ∧ st.sem.count = 0)).goto p (.resetTest newVal newMaxVal))
  | maxRaises {p newVal newMaxVal} : st.pc p = .resetTest newVal newMaxVal →
      st.sem.maxVal < newMaxVal →
      Step pid st (.resume p) (st.goto p (.resetMax newVal newMaxVal))
  | maxStays {p newVal newMaxVal} : st.pc p = .resetTest newVal newMaxVal →
      ¬ st.sem.maxVal < newMaxVal →
      Step pid st (.resume p) (st.finish p (.reset (pid p) newVal newMaxVal) 0)
  | maxSet {p newVal newMaxVal} : st.pc p = .resetMax newVal newMaxVal →
      Step pid st (.resume p) ({ st with sem := { st.sem with maxVal := newMaxVal } }.finish p
        (.reset (pid p) newVal newMaxVal) 0)
  | killed {p} : Step pid st (.kill p)
      { st.goto p (if st.pc p = .waiting true then .waiting false else st.pc p) with
        killed := Function.update st.killed p true }

theorem waitPass_step {p : P} (h : Passes st a p) : Step pid st a (st.waitPass p) := by
  unfold State.waitPass semWaitPass
  by_cases hc : 0 < st.sem.count
  · simpa [hc] using Step.taken h hc
  · cases hk : st.killed p with
    | true => simpa [hc] using Step.givenUp h hc hk
    | false => simpa [hc] using Step.sleeps h hc hk

/-- Everything a step can do. -/
theorem step_cases (h : step pid st a = some st') : Step pid st a st' := by
  cases a with
  | wait p =>
      by_cases hp : st.pc p = .idle
      · obtain rfl : st.waitPass p = st' := by simpa [step, hp] using h
        exact waitPass_step (.inl ⟨rfl, hp⟩)
      · simp [step, hp] at h
  | tryWait p =>
      by_cases hp : st.pc p = .idle
      · by_cases hc : 0 < st.sem.count
        · simp only [step, hp, semTryWait, hc, if_true, Option.some.injEq] at h
          exact h ▸ .tryTaken hp hc
        · simp only [step, hp, semTryWait, hc, if_true, if_false, Option.some.injEq] at h
          exact h ▸ .tryFailed hp hc
      · simp [step, hp] at h
  | post p =>
      by_cases hp : st.pc p = .idle
      · by_cases hc : st.sem.count = st.sem.maxVal
        · simp only [step, hp, semPost, hc, if_true, Option.some.injEq] at h
          exact h ▸ .postRefused hp hc
        · simp only [step, hp, semPost, hc, if_true, if_false, Option.some.injEq] at h
          exact h ▸ .posted hp hc
      · simp [step, hp] at h
  | reset p newVal newMaxVal =>
      by_cases hp : st.pc p = .idle
      · cases hg : semResetRefuses (pid p) newVal newMaxVal st.sem with
        | true =>
            simp only [step, hp, hg, if_true, Option.some.injEq] at h
            exact h ▸ .resetRefused hp hg
        | false =>
            have hgoto : Step pid st (.reset p newVal newMaxVal) _ := .resetEnters hp hg
            by_cases hv : 0 ≤ newVal <;> simp [step, hp, hg, hv] at h hgoto <;>
              exact h ▸ hgoto
      · simp [step, hp] at h
  | resume p =>
      cases hp : st.pc p with
      | idle => simp [step, hp] at h
      | waiting asleep =>
          cases asleep with
          | true => simp [step, hp] at h
          | false =>
              obtain rfl : st.waitPass p = st' := by simpa [step, hp] using h
              exact waitPass_step (.inr ⟨rfl, hp⟩)
      | resetCount newVal newMaxVal =>
          simp only [step, hp, semResetCount, Option.some.injEq] at h
          exact h ▸ .countSet hp
      | resetTest newVal newMaxVal =>
          by_cases hm : st.sem.maxVal < newMaxVal
          · simp only [step, hp, hm, if_true, Option.some.injEq] at h
            exact h ▸ .maxRaises hp hm
          · simp only [step, hp, hm, if_false, Option.some.injEq] at h
            exact h ▸ .maxStays hp hm
      | resetMax newVal newMaxVal =>
          simp only [step, hp, semResetMax, Option.some.injEq] at h
          exact h ▸ .maxSet hp
  | kill p =>
      simp only [step, Option.some.injEq] at h
      exact h ▸ .killed

end OsSolutions.Slot
