import OsSolutions.Model.Calls
import OsSolutions.Transition.Run
import OsSolutions.Verification.Sem.Sections
import Mathlib.Data.Int.Order.Basic

/-! # The range of the count

`sem_post` refuses only at equality with the maximum, so it is exact as long as the count
has not passed the maximum. The one call that can carry it past is `sem_reset`. -/

namespace OsSolutions

open Transition

namespace Sem

def InRange (s : Sem) : Prop := 0 ≤ s.count ∧ s.count ≤ s.maxVal

/-- `sem_post` refuses exactly a full semaphore, and otherwise counts without overflow. -/
def PostExact (s : Sem) : Prop :=
  ((semPost s).2.1 = -2 ↔ s.maxVal ≤ s.count) ∧
    ((semPost s).2.1 = 0 → (semPost s).1.count.toInt = s.count.toInt + 1)

theorem toInt_succ {a b : Int32} (h : a < b) : (a + 1).toInt = a.toInt + 1 := by
  have hlow := a.le_toInt
  have hhigh := b.toInt_lt
  rw [Int32.lt_iff_toInt_lt] at h
  rw [Int32.toInt_add, Int.bmod_eq_of_le] <;> simp <;> omega

theorem InRange.postExact {s : Sem} (h : s.InRange) : s.PostExact := by
  obtain ⟨_, hle⟩ := h
  by_cases he : s.count = s.maxVal
  · simp [PostExact, semPost, he]
  · have hlt : s.count < s.maxVal := Int32.lt_of_le_of_ne hle he
    have hnot : ¬ s.maxVal ≤ s.count := Int32.not_le.mpr hlt
    simp [PostExact, semPost, he, hnot, toInt_succ hlt]

end Sem

/-- A reset that the guard lets through stores no value above the maximum it leaves. -/
def ResetFits (s : Sem) : Call → Prop
  | .reset pid newVal newMaxVal =>
      semResetRefuses pid newVal newMaxVal s = false → 0 ≤ newVal →
        newVal ≤ s.maxVal ∨ newVal ≤ newMaxVal
  | _ => True

/-! ## One call -/

theorem semWaitPass_inRange {s s' : Sem} {killed : Bool} {r : Option ℤ} (h : s.InRange)
    (hs : semWaitPass killed s = (s', r)) : s'.InRange := by
  unfold semWaitPass at hs
  split at hs
  · rename_i hpos
    obtain ⟨rfl, _⟩ := Prod.mk.inj hs
    obtain ⟨_, hle⟩ := h
    simp only [Sem.InRange]
    grind
  · split at hs <;>
    · obtain ⟨rfl, _⟩ := Prod.mk.inj hs
      exact h

theorem semTryWait_inRange {s : Sem} (h : s.InRange) : (semTryWait s).1.InRange := by
  unfold semTryWait
  split
  · obtain ⟨_, hle⟩ := h
    simp only [Sem.InRange]
    grind
  · exact h

theorem semPost_inRange {s : Sem} (h : s.InRange) : (semPost s).1.InRange := by
  unfold semPost
  split
  · exact h
  · rename_i hne
    obtain ⟨hpos, hle⟩ := h
    simp only [Sem.InRange]
    grind

/-- A reset keeps the range exactly when its value fits. -/
theorem semReset_inRange_iff {s : Sem} (h : s.InRange) (pid newVal newMaxVal : Int32) :
    (semReset pid newVal newMaxVal s).1.InRange ↔
      ResetFits s (.reset pid newVal newMaxVal) := by
  obtain ⟨hpos, hle⟩ := h
  unfold semReset ResetFits
  cases hg : semResetRefuses pid newVal newMaxVal s with
  | true => simp [Sem.InRange, hpos, hle, hg]
  | false =>
      by_cases hv : 0 ≤ newVal
      · by_cases hm : s.maxVal < newMaxVal
        · simp [hv, hm, semResetCount, semResetMax, Sem.InRange]
          grind
        · simp [hv, hm, semResetCount, Sem.InRange]
          grind
      · by_cases hm : s.maxVal < newMaxVal
        · simp [hv, hm, semResetMax, Sem.InRange]
          grind
        · simp [hv, hm, Sem.InRange, hpos, hle]

theorem callStep_inRange_iff (s : Sem) (c : Call) (s' : Sem) (h : s.InRange)
    (hs : callStep s c = some s') : s'.InRange ↔ ResetFits s c := by
  cases c with
  | wait killed =>
      refine iff_of_true ?_ trivial
      simp only [callStep, Call.exec, Option.map_map, Option.map_eq_some_iff] at hs
      obtain ⟨r, _, rfl⟩ := hs
      exact semWaitPass_inRange h rfl
  | tryWait =>
      obtain rfl : (semTryWait s).1 = s' := by simpa [callStep, Call.exec] using hs
      exact iff_of_true (semTryWait_inRange h) trivial
  | post =>
      obtain rfl : (semPost s).1 = s' := by simpa [callStep, Call.exec] using hs
      exact iff_of_true (semPost_inRange h) trivial
  | reset pid newVal newMaxVal =>
      obtain rfl : (semReset pid newVal newMaxVal s).1 = s' := by
        simpa [callStep, Call.exec] using hs
      exact semReset_inRange_iff h pid newVal newMaxVal

/-! ## Every run of calls -/

/-- From its creation on, the count of a semaphore stays in range and `sem_post` exact
through a run of calls exactly when every accepted reset of the run fits. -/
theorem always_inRange_iff (x : Sem) (name : CString) (init maxVal pid : Int32)
    (hinit : 0 ≤ init) (hmax : init ≤ maxVal) (calls : List Call) :
    Always callStep (fun s => s.InRange ∧ s.PostExact) (x.opened name init maxVal pid) calls ↔
      Meets callStep ResetFits (x.opened name init maxVal pid) calls := by
  apply always_iff_meets
  · intro s c s' h hs
    rw [← callStep_inRange_iff s c s' h.1 hs]
    exact ⟨fun h' => h'.1, fun h' => ⟨h', h'.postExact⟩⟩
  · have hr : (x.opened name init maxVal pid).InRange := ⟨hinit, hmax⟩
    exact ⟨hr, hr.postExact⟩

theorem always_inRange_iff_dad :
    Always callStep (fun s => s.InRange ∧ s.PostExact)
        (Sem.zero.opened ⟨[100, 97, 100], by decide⟩ 2 2 1) [.tryWait, .post, .post] ↔
      Meets callStep ResetFits
        (Sem.zero.opened ⟨[100, 97, 100], by decide⟩ 2 2 1) [.tryWait, .post, .post] :=
  always_inRange_iff Sem.zero _ 2 2 1 (by decide) (by decide) _

/-- The owner of a semaphore with maximum 4 sets its count to 10, after which a post is
accepted and counts on. -/
theorem semReset_count_passes_max :
    ∃ s, run callStep (Sem.zero.opened ⟨[115], by decide⟩ 0 4 1) [.reset 1 10 (-1), .post] =
        some s ∧ s.maxVal = 4 ∧ s.count = 11 ∧ ¬ s.InRange :=
  ⟨_, rfl, by decide, by decide, fun h => absurd h.2 (by decide)⟩

end OsSolutions
