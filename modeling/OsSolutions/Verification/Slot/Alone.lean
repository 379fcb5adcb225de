import OsSolutions.Verification.Slot.Steps

/-! # Calls on a semaphore without interference

Run section by section with nobody in between, a call of the machine does what the call
does as a whole. -/

namespace OsSolutions.Slot

open Transition

variable {P : Type*} [DecidableEq P] {pid : P → Int32} {st : State P} {p : P}

/-- Process `p` may make the call in this state. -/
def MadeBy (pid : P → Int32) (st : State P) (p : P) : Call → Prop
  | .wait killed => killed = st.killed p
  | .reset caller _ _ => caller = pid p
  | _ => True

/-- The action with which `p` enters the call. -/
def entry (p : P) : Call → Act P
  | .wait _ => .wait p
  | .tryWait => .tryWait p
  | .post => .post p
  | .reset _ newVal newMaxVal => .reset p newVal newMaxVal

/-- The actions finish the call `c` of `p`: it returns `r` and leaves the slot `s`. -/
def Finishes (pid : P → Int32) (st : State P) (p : P) (acts : List (Act P)) (c : Call)
    (s : Sem) (r : ℤ) : Prop :=
  ∃ st', run (step pid) st acts = some st' ∧ st'.sem = s ∧
    st'.returned = ⟨p, c, r⟩ :: st.returned ∧ st'.pc p = .idle

theorem wait_alone (hp : st.pc p = .idle) {s : Sem} {r : ℤ}
    (h : (Call.wait (st.killed p)).exec st.sem = some (s, r)) :
    Finishes pid st p [.wait p] (.wait (st.killed p)) s r := by
  refine ⟨st.waitPass p, by simp [run_cons, step, hp], ?_⟩
  rcases hpass : semWaitPass (st.killed p) st.sem with ⟨x, _ | v⟩
  · simp [Call.exec, hpass] at h
  · obtain ⟨rfl, rfl⟩ : x = s ∧ v = r := by simpa [Call.exec, hpass] using h
    simp [State.waitPass, hpass]

theorem tryWait_alone (hp : st.pc p = .idle) :
    Finishes pid st p [.tryWait p] .tryWait (semTryWait st.sem).1 (semTryWait st.sem).2 := by
  refine ⟨({ st with sem := (semTryWait st.sem).1 } : State P).finish p .tryWait
    (semTryWait st.sem).2, ?_, ?_⟩
  · simp [run_cons, step, hp]
  · simp

theorem post_alone (hp : st.pc p = .idle) :
    Finishes pid st p [.post p] .post (semPost st.sem).1 (semPost st.sem).2.1 := by
  refine ⟨(({ st with sem := (semPost st.sem).1 } : State P).wakeIf
    (semPost st.sem).2.2).finish p .post (semPost st.sem).2.1, ?_, ?_⟩
  · simp [run_cons, step, hp]
  · simp

/-! ## The sections of a reset -/

/-- From the second test of a reset on. -/
theorem resetTest_alone (pid : P → Int32) (st : State P) {v m : Int32}
    (hp : st.pc p = .resetTest v m) :
    ∃ n, Finishes pid st p (List.replicate n (.resume p)) (.reset (pid p) v m)
      (if st.sem.maxVal < m then semResetMax m st.sem else st.sem) 0 := by
  by_cases hm : st.sem.maxVal < m
  · refine ⟨2, ({ st.goto p (.resetMax v m) with sem := semResetMax m st.sem } : State P).finish p
      (.reset (pid p) v m) 0, ?_, ?_⟩
    · simp [List.replicate, run_cons, step, hp, hm]
    · simp [hm]
  · refine ⟨1, st.finish p (.reset (pid p) v m) 0, ?_, ?_⟩
    · simp [List.replicate, run_cons, step, hp, hm]
    · simp [hm]

theorem resetRefused_alone {v m : Int32} (hp : st.pc p = .idle)
    (hg : semResetRefuses (pid p) v m st.sem = true) :
    Finishes pid st p [.reset p v m] (.reset (pid p) v m) st.sem (-1) := by
  refine ⟨st.finish p (.reset (pid p) v m) (-1), ?_, ?_⟩
  · simp [run_cons, step, hp, hg]
  · simp

/-- From the entry of a reset that passed its guard on. -/
theorem resetEntered_alone {v m : Int32} (hp : st.pc p = .idle)
    (hg : semResetRefuses (pid p) v m st.sem = false) :
    ∃ n, Finishes pid st p (.reset p v m :: List.replicate n (.resume p)) (.reset (pid p) v m)
      (semReset (pid p) v m st.sem).1 0 := by
  by_cases hv : 0 ≤ v
  · let counted : State P := (({ st.goto p (.resetCount v m) with
      sem := (semResetCount v st.sem).1 } : State P).wakeIf (semResetCount v st.sem).2).goto p
        (.resetTest v m)
    have htest : counted.pc p = .resetTest v m := by simp [counted]
    obtain ⟨n, st', hrun, hsem, hret, hidle⟩ := resetTest_alone pid counted htest
    refine ⟨n + 1, st', ?_, ?_, ?_, hidle⟩
    · simpa [List.replicate_succ, run_cons, step, hp, hg, hv, counted] using hrun
    · rw [hsem]
      simp [semReset, hg, hv, counted]
    · simpa [counted] using hret
  · have htest : (st.goto p (.resetTest v m)).pc p = .resetTest v m := by simp
    obtain ⟨n, st', hrun, hsem, hret, hidle⟩ := resetTest_alone pid _ htest
    refine ⟨n, st', ?_, ?_, hret, hidle⟩
    · simpa [run_cons, step, hp, hg, hv] using hrun
    · rw [hsem]
      by_cases hm : st.sem.maxVal < m <;> simp [semReset, hg, hv, hm]

/-! ## Every call -/

/-- A call that does not have to sleep, made by an idle process and run alone, is the call
as a whole. -/
theorem call_alone (hp : st.pc p = .idle) {c : Call} (hc : MadeBy pid st p c) {s : Sem} {r : ℤ}
    (h : c.exec st.sem = some (s, r)) :
    ∃ n, Finishes pid st p (entry p c :: List.replicate n (.resume p)) c s r := by
  cases c with
  | wait killed =>
      obtain rfl : killed = st.killed p := hc
      exact ⟨0, wait_alone hp h⟩
  | tryWait =>
      obtain ⟨rfl, rfl⟩ := Prod.mk.inj (Option.some.inj h)
      exact ⟨0, tryWait_alone hp⟩
  | post =>
      obtain ⟨rfl, rfl⟩ := Prod.mk.inj (Option.some.inj h)
      exact ⟨0, post_alone hp⟩
  | reset caller newVal newMaxVal =>
      obtain rfl : caller = pid p := hc
      have hexec : semReset (pid p) newVal newMaxVal st.sem = (s, r) := Option.some.inj h
      cases hg : semResetRefuses (pid p) newVal newMaxVal st.sem with
      | true =>
          obtain ⟨rfl, rfl⟩ : st.sem = s ∧ -1 = r := by simpa [semReset, hg] using hexec
          exact ⟨0, resetRefused_alone hp hg⟩
      | false =>
          obtain rfl : 0 = r := by simpa [semReset, hg] using congrArg Prod.snd hexec
          obtain rfl : (semReset (pid p) newVal newMaxVal st.sem).1 = s :=
            congrArg Prod.fst hexec
          exact resetEntered_alone hp hg

end OsSolutions.Slot
