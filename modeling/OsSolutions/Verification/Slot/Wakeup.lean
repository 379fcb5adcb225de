import OsSolutions.Verification.Slot.Steps
import Mathlib.Data.Int.Order.Basic

/-! # No lost wakeup in `sem_wait`

A post wakes when the count becomes one, and every rise from at most zero passes through
one. A reset jumps, and wakes only when it leaves zero itself: a negative count, which
`sem_open` accepts, is the case it misses. -/

namespace OsSolutions.Slot

open Transition

variable {P : Type*} [DecidableEq P]

/-- No process sleeps in `sem_wait` while there is a unit to take. -/
def Awake (st : State P) : Prop := 0 < st.sem.count → ∀ p, st.pc p ≠ .waiting true

/-- A reset that raises a negative count finds no process asleep. -/
def ResetWakes (st : State P) : Act P → Prop
  | .resume p => ∀ newVal newMaxVal, st.pc p = .resetCount newVal newMaxVal →
      0 < newVal → st.sem.count < 0 → ∀ q, st.pc q ≠ .waiting true
  | _ => True

theorem goto_pc_ne_asleep {st : State P} {p : P} {c : Pc} (hc : c ≠ .waiting true)
    (h : ∀ q, st.pc q ≠ .waiting true) (q : P) : (st.goto p c).pc q ≠ .waiting true := by
  by_cases hq : q = p
  · subst q
    rwa [State.goto_pc_self]
  · rw [State.goto_pc_of_ne c hq]
    exact h q

/-- A step that leaves the count no larger and puts nobody to sleep keeps `Awake`. -/
theorem Awake.of_count_le {st : State P} (h : Awake st) {sem : Sem} {p : P} {c : Pc}
    (hc : c ≠ .waiting true) (hle : 0 < sem.count → 0 < st.sem.count) :
    Awake (({ st with sem := sem } : State P).goto p c) :=
  fun hpos => goto_pc_ne_asleep hc (h (hle hpos))

theorem awake_wakeup (st : State P) (p : P) {c : Pc} (hc : c ≠ .waiting true) :
    Awake ((st.wakeIf true).goto p c) :=
  fun _ => goto_pc_ne_asleep hc (wakeup_ne_asleep st.pc)

/-- A post reaches a positive count either from another one or through one. -/
theorem pos_of_succ_pos {a : Int32} (h : 0 < a + 1) (h1 : a + 1 ≠ 1) : 0 < a := by grind

omit [DecidableEq P] in
theorem resetWakes_of_passes {st : State P} {a : Act P} {p : P} (h : Passes st a p) :
    ResetWakes st a := by
  rcases h with ⟨rfl, _⟩ | ⟨rfl, hp⟩
  · trivial
  · intro newVal newMaxVal hpc
    rw [hp] at hpc
    cases hpc

omit [DecidableEq P] in
theorem resetWakes_of_pc {st : State P} {p : P} {c : Pc} (hp : st.pc p = c)
    (hc : ∀ newVal newMaxVal, c ≠ .resetCount newVal newMaxVal) :
    ResetWakes st (.resume p) := by
  intro newVal newMaxVal hpc
  exact absurd (hp.symm.trans hpc) (hc newVal newMaxVal)

/-- The first section of a reset keeps `Awake` exactly when it does not pass over
sleepers from below zero. -/
theorem countSet_awake_iff {st : State P} {p : P} {newVal newMaxVal : Int32} (h : Awake st)
    (hp : st.pc p = .resetCount newVal newMaxVal) :
    Awake ((({ st with sem := { st.sem with count := newVal } } : State P).wakeIf
      (0 < newVal ∧ st.sem.count = 0)).goto p (.resetTest newVal newMaxVal)) ↔
        ResetWakes st (.resume p) := by
  by_cases hw : 0 < newVal ∧ st.sem.count = 0
  · have hwakes : ResetWakes st (.resume p) := by
      intro _ _ _ _ hneg
      rw [hw.2] at hneg
      exact absurd hneg (by decide)
    simp only [hw, and_self, decide_true]
    exact iff_of_true (awake_wakeup _ p (by simp)) hwakes
  · simp only [hw, decide_false, State.wakeIf_false]
    constructor
    · intro ha newVal' newMaxVal' hpc hpos _ q
      obtain ⟨rfl, rfl⟩ : newVal = newVal' ∧ newMaxVal = newMaxVal' := by
        simpa using hp.symm.trans hpc
      by_cases hq : q = p
      · subst q
        simp [hp]
      · have hne := ha hpos q
        rwa [State.goto_pc_of_ne _ hq] at hne
    · intro hwakes hpos
      apply goto_pc_ne_asleep (by simp)
      -- the old count is not zero: either it was positive, or nobody may sleep
      by_cases hc : 0 < st.sem.count
      · exact h hc
      · have hpos' : 0 < newVal := hpos
        exact hwakes newVal newMaxVal hp hpos' (by grind)

theorem step_awake_iff {pid : P → Int32} {st : State P} {a : Act P} {st' : State P}
    (h : Awake st) (hs : step pid st a = some st') : Awake st' ↔ ResetWakes st a := by
  cases step_cases hs with
  | taken hp hc => exact iff_of_true (h.of_count_le (by simp) fun _ => hc) (resetWakes_of_passes hp)
  | givenUp hp hc hk => exact iff_of_true (h.of_count_le (by simp) id) (resetWakes_of_passes hp)
  | sleeps hp hc hk => exact iff_of_true (fun hpos => absurd hpos hc) (resetWakes_of_passes hp)
  | tryTaken hp hc => exact iff_of_true (h.of_count_le (by simp) fun _ => hc) trivial
  | tryFailed hp hc => exact iff_of_true (h.of_count_le (by simp) id) trivial
  | @posted p hp hm =>
      refine iff_of_true ?_ trivial
      by_cases hone : st.sem.count + 1 = 1
      · simp only [hone, decide_true]
        exact awake_wakeup { st with sem := { st.sem with count := 1 } } p (c := .idle) (by simp)
      · simp only [hone, decide_false]
        exact h.of_count_le (by simp) fun hpos => pos_of_succ_pos hpos hone
  | postRefused hp hm => exact iff_of_true (h.of_count_le (by simp) id) trivial
  | resetRefused hp hg => exact iff_of_true (h.of_count_le (by simp) id) trivial
  | resetEnters hp hg => exact iff_of_true (h.of_count_le (by split <;> simp) id) trivial
  | countSet hp => exact countSet_awake_iff h hp
  | maxRaises hp hm =>
      exact iff_of_true (h.of_count_le (by simp) id) (resetWakes_of_pc hp (by simp))
  | maxStays hp hm =>
      exact iff_of_true (h.of_count_le (by simp) id) (resetWakes_of_pc hp (by simp))
  | maxSet hp =>
      exact iff_of_true (h.of_count_le (by simp) id) (resetWakes_of_pc hp (by simp))
  | killed =>
      refine iff_of_true (h.of_count_le ?_ id) trivial
      split
      · simp
      · assumption

/-- Along a run on a semaphore opened with any count and maximum, nobody sleeps while
there is a unit to take exactly when no reset raises a negative count over a sleeper. -/
theorem always_awake_iff (pid : P → Int32) (x : Sem) (name : CString)
    (init maxVal creator : Int32) (acts : List (Act P)) :
    Always (step pid) Awake (start (x.opened name init maxVal creator)) acts ↔
      Meets (step pid) ResetWakes (start (x.opened name init maxVal creator)) acts := by
  apply always_iff_meets
  · exact fun st a st' h hs => step_awake_iff h hs
  · intro _ p
    simp [start]

/-- Opened with count -1, the semaphore puts process 1 to sleep; its owner then resets the
count to 1 without a wakeup. -/
theorem semReset_sleeper_left :
    ∃ st : State (Fin 2),
      run (step fun p => if p = 0 then 1 else 2)
        (start (Sem.zero.opened ⟨[115], by decide⟩ (-1) 5 1))
        [.wait 1, .reset 0 1 (-1), .resume 0, .resume 0] = some st ∧
      st.sem.count = 1 ∧ st.pc 1 = .waiting true ∧ ¬ Awake st :=
  ⟨_, rfl, by decide, by decide, fun h => absurd (h (by decide) 1) (by decide)⟩

end OsSolutions.Slot
