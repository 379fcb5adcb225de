import OsSolutions.Model.KernelMachine
import OsSolutions.Transition.Run
import OsSolutions.Verification.Sem.Sections

/-! # Failed system calls

A call that returns a negative value has changed nothing, with one exception: `sys_sem_open`
takes its reference before it looks for a free descriptor. -/

namespace OsSolutions.Kernel

open Transition

variable {k : Kernel} {p : Fin NPROC} {args : Args}

/-- If the call returns a negative value, then the table and all descriptors are as before. -/
def Harmless (k : Kernel) (p : Fin NPROC) (args : Args) (c : SysCall) : Prop :=
  ∀ k' r, c.exec k p args = some (k', r) → r < 0 →
    k'.sem = k.sem ∧ ∀ q, (k'.proc q).osem = (k.proc q).osem

/-- A `sys_sem_open` with valid arguments, by a process whose descriptors are all in use,
that finds an open slot of the name or a free one. -/
def OpensWithoutRoom (k : Kernel) (p : Fin NPROC) (args : Args) : Prop :=
  ∃ name init maxVal, args.argstr 0 = some name ∧ args.argint 1 = some init ∧
    args.argint 2 = some maxVal ∧ (∀ sd, (k.proc p).osem sd ≠ none) ∧
    ((∃ s, 0 < (k.sem s).ref ∧ (k.sem s).matches name) ∨ ∃ s, (k.sem s).linked = false)

/-! ## Calls on an open semaphore -/

theorem semTryWait_failed {x : Sem} (h : (semTryWait x).2 < 0) : (semTryWait x).1 = x := by
  by_cases hc : 0 < x.count
  · simp [semTryWait, hc] at h
  · simp [semTryWait, hc]

theorem semPost_failed {x : Sem} (h : (semPost x).2.1 < 0) : (semPost x).1 = x := by
  by_cases hc : x.count = x.maxVal
  · simp [semPost, hc]
  · simp [semPost, hc] at h

theorem semReset_failed {x : Sem} {pid newVal newMaxVal : Int32}
    (h : (semReset pid newVal newMaxVal x).2 < 0) :
    (semReset pid newVal newMaxVal x).1 = x := by
  cases hg : semResetRefuses pid newVal newMaxVal x with
  | true => simp [semReset, hg]
  | false => simp [semReset, hg] at h

theorem semWaitPass_failed {x x' : Sem} {killed : Bool} {r : ℤ}
    (h : semWaitPass killed x = (x', some r)) (hr : r < 0) : x' = x := by
  unfold semWaitPass at h
  split at h
  · cases h
    exact absurd hr (by decide)
  · split at h
    · cases h
      rfl
    · cases h

/-- A call that leaves the table alone whenever it fails. -/
theorem harmless_of_sem {c : SysCall} {t : STable} {v : ℤ}
    (hexec : c.exec k p args = some ({ k with sem := t }, v)) (h : v < 0 → t = k.sem) :
    Harmless k p args c := by
  intro k' r hs hr
  rw [hexec] at hs
  cases hs
  exact ⟨h hr, fun _ => rfl⟩

theorem harmless_of_refused {c : SysCall} (hexec : c.exec k p args = some (k, -1)) :
    Harmless k p args c :=
  harmless_of_sem (t := k.sem) (v := -1) hexec fun _ => rfl

/-- A call that writes to one slot, and writes what was there whenever it fails. -/
theorem harmless_of_modify {c : SysCall} (s : Fin NSEM) (f : Sem → Sem) {v : ℤ}
    (hexec : c.exec k p args = some ({ k with sem := k.sem.modify s f }, v))
    (h : v < 0 → f (k.sem s) = k.sem s) : Harmless k p args c := by
  apply harmless_of_sem hexec
  intro hr
  rw [STable.modify, h hr, Function.update_eq_self]

theorem harmless_semClose : Harmless k p args .semClose := by
  intro k' r hs hr
  simp only [SysCall.exec, sysSemClose, Option.some.injEq] at hs
  split at hs
  · cases hs
    exact absurd hr (by decide)
  · cases hs
    exact ⟨rfl, fun _ => rfl⟩

theorem harmless_semWait : Harmless k p args .semWait := by
  cases hsd : k.argsd p args 0 with
  | none => exact harmless_of_refused (by simp [SysCall.exec, sysSemWait, hsd])
  | some i =>
      rcases hpass : semWaitPass (k.proc p).killed (k.sem i.2) with ⟨x, _ | v⟩
      · intro k' r hs
        simp [SysCall.exec, sysSemWait, hsd, hpass] at hs
      · apply harmless_of_modify i.2 (fun _ => x) (v := v)
        · simp [SysCall.exec, sysSemWait, hsd, hpass]
        · exact semWaitPass_failed hpass

theorem harmless_semTryWait : Harmless k p args .semTryWait := by
  cases hsd : k.argsd p args 0 with
  | none => exact harmless_of_refused (by simp [SysCall.exec, sysSemTryWait, hsd])
  | some i =>
      apply harmless_of_modify i.2 (fun x => (semTryWait x).1)
      · simp only [SysCall.exec, sysSemTryWait, hsd]
        rfl
      · exact semTryWait_failed

theorem harmless_semPost : Harmless k p args .semPost := by
  cases hsd : k.argsd p args 0 with
  | none => exact harmless_of_refused (by simp [SysCall.exec, sysSemPost, hsd])
  | some i =>
      apply harmless_of_modify i.2 (fun x => (semPost x).1)
      · simp only [SysCall.exec, sysSemPost, hsd]
        rfl
      · exact semPost_failed

theorem harmless_semReset : Harmless k p args .semReset := by
  cases hsd : k.argsd p args 0 with
  | none => exact harmless_of_refused (by simp [SysCall.exec, sysSemReset, hsd])
  | some i =>
      cases h1 : args.argint 1 with
      | none => exact harmless_of_refused (by simp [SysCall.exec, sysSemReset, hsd, h1])
      | some newVal =>
          cases h2 : args.argint 2 with
          | none => exact harmless_of_refused (by simp [SysCall.exec, sysSemReset, hsd, h1, h2])
          | some newMaxVal =>
              apply harmless_of_modify i.2
                fun x => (semReset (k.proc p).pid newVal newMaxVal x).1
              · simp only [SysCall.exec, sysSemReset, hsd, h1, h2]
                rfl
              · exact semReset_failed

/-! ## `sys_sem_open` -/

theorem semOpen_none {t : STable} {name : CString} {init maxVal pid : Int32}
    (h : (semOpen t name init maxVal pid).2 = none) :
    (semOpen t name init maxVal pid).1 = t ∧
      ¬ ((∃ s, 0 < (t s).ref ∧ (t s).matches name) ∨ ∃ s, (t s).linked = false) := by
  rcases semOpenScan_cases t name with ⟨s, hscan, _⟩ | ⟨s, hscan, _⟩ | ⟨hscan, hall, hno⟩
  · simp [semOpen, hscan] at h
  · simp [semOpen, hscan] at h
  · refine ⟨by simp only [semOpen, hscan], ?_⟩
    rintro (⟨s, hs⟩ | ⟨s, hs⟩)
    · exact hno s hs
    · rw [hall s] at hs
      cases hs

theorem semOpen_some {t : STable} {name : CString} {init maxVal pid : Int32} {s : Fin NSEM}
    (h : (semOpen t name init maxVal pid).2 = some s) :
    (semOpen t name init maxVal pid).1 ≠ t ∧
      ((∃ s, 0 < (t s).ref ∧ (t s).matches name) ∨ ∃ s, (t s).linked = false) := by
  rcases semOpenScan_cases t name with
    ⟨u, hscan, hpos, hmatch, _⟩ | ⟨u, hscan, hfree, _⟩ | ⟨hscan, _⟩
  · refine ⟨?_, .inl ⟨u, hpos, hmatch⟩⟩
    intro heq
    have href := congrArg (fun t : STable => (t u).ref) heq
    simp only [semOpen, hscan, semdup_ref, if_true] at href
    omega
  · refine ⟨?_, .inr ⟨u, hfree⟩⟩
    intro heq
    have hlinked := congrArg (fun t : STable => (t u).linked) heq
    simp [semOpen, hscan, semOpenInit, hfree] at hlinked
  · simp [semOpen, hscan] at h

theorem sysSemOpen_badArgs (h : ¬ ∃ name init maxVal, args.argstr 0 = some name ∧
    args.argint 1 = some init ∧ args.argint 2 = some maxVal) :
    k.sysSemOpen p args = (k, -1) := by
  unfold sysSemOpen
  split
  · rename_i name init maxVal h0 h1 h2
    exact absurd ⟨name, init, maxVal, h0, h1, h2⟩ h
  · rfl

theorem opensWithoutRoom_iff {name : CString} {init maxVal : Int32}
    (h0 : args.argstr 0 = some name) (h1 : args.argint 1 = some init)
    (h2 : args.argint 2 = some maxVal) :
    OpensWithoutRoom k p args ↔ (∀ sd, (k.proc p).osem sd ≠ none) ∧
      ((∃ s, 0 < (k.sem s).ref ∧ (k.sem s).matches name) ∨ ∃ s, (k.sem s).linked = false) := by
  constructor
  · intro ⟨n, i, m, hn, _, _, h⟩
    obtain rfl : n = name := Option.some.inj (hn.symm.trans h0)
    exact h
  · intro h
    exact ⟨name, init, maxVal, h0, h1, h2, h⟩

theorem harmless_semOpen_iff :
    Harmless k p args .semOpen ↔ ¬ OpensWithoutRoom k p args := by
  by_cases hargs : ∃ name init maxVal, args.argstr 0 = some name ∧
      args.argint 1 = some init ∧ args.argint 2 = some maxVal
  · obtain ⟨name, init, maxVal, h0, h1, h2⟩ := hargs
    rw [opensWithoutRoom_iff h0 h1 h2]
    rcases hopen : semOpen k.sem name init maxVal (k.proc p).pid with ⟨t, _ | s⟩
    · -- nothing found: the call fails before it changes anything
      have hnone := semOpen_none (congrArg Prod.snd hopen)
      rw [hopen] at hnone
      refine iff_of_true ?_ fun h => hnone.2 h.2
      apply harmless_of_sem (t := t) (v := -1)
      · simp [SysCall.exec, sysSemOpen, h0, h1, h2, hopen]
      · exact fun _ => hnone.1
    · have hsome := semOpen_some (congrArg Prod.snd hopen)
      rw [hopen] at hsome
      cases hfind : (List.finRange NOSEM).find? fun sd => (k.proc p).osem sd = none with
      | some sd =>
          have hfree : (k.proc p).osem sd = none := by simpa using List.find?_some hfind
          refine iff_of_true ?_ fun h => h.1 sd hfree
          intro k' r hs hr
          simp only [SysCall.exec, sysSemOpen, h0, h1, h2, hopen, hfind, Option.some.injEq]
            at hs
          cases hs
          omega
      | none =>
          have hfull : ∀ sd, (k.proc p).osem sd ≠ none := by
            intro sd
            simpa using List.find?_eq_none.mp hfind sd (List.mem_finRange sd)
          refine iff_of_false ?_ fun h => h ⟨hfull, hsome.2⟩
          intro h
          have hexec : SysCall.semOpen.exec k p args = some ({ k with sem := t }, -1) := by
            simp only [SysCall.exec, sysSemOpen, h0, h1, h2, hopen, hfind]
          exact hsome.1 (h _ _ hexec (by decide)).1
  · refine iff_of_true ?_ ?_
    · apply harmless_of_sem (t := k.sem) (v := -1)
      · simp [SysCall.exec, sysSemOpen_badArgs hargs]
      · exact fun _ => rfl
    · intro ⟨name, init, maxVal, h0, h1, h2, _⟩
      exact hargs ⟨name, init, maxVal, h0, h1, h2⟩

/-! ## All calls -/

/-- A failed call has no effect, unless it is a `sys_sem_open` that found a semaphore but no
descriptor for it. -/
theorem harmless_iff (k : Kernel) (p : Fin NPROC) (args : Args) (c : SysCall) :
    Harmless k p args c ↔ ¬ (c = .semOpen ∧ OpensWithoutRoom k p args) := by
  cases c with
  | semOpen => simpa using harmless_semOpen_iff
  | semClose => simpa using harmless_semClose
  | semWait => simpa using harmless_semWait
  | semTryWait => simpa using harmless_semTryWait
  | semPost => simpa using harmless_semPost
  | semReset => simpa using harmless_semReset

/-- With five descriptors of one semaphore, the sixth `sys_sem_open` returns -1 and leaves a
sixth reference. -/
theorem sysSemOpen_keeps_reference :
    let args : Args := ⟨fun _ => some 1, fun _ => some ⟨[115, 101, 109], by decide⟩⟩
    ∃ st, run Machine.step Machine.boot (List.replicate 5 (.semOpen 0 args)) = some st ∧
      (st.kernel.sem 0).ref = 5 ∧ (st.kernel.sysSemOpen 0 args).2 = -1 ∧
      ((st.kernel.sysSemOpen 0 args).1.sem 0).ref = 6 ∧
      ¬ Harmless st.kernel 0 args .semOpen := by
  refine ⟨_, rfl, by decide, by decide, by decide, ?_⟩
  intro h
  have hsem := (h _ _ rfl (by decide)).1
  exact absurd (congrArg (fun t : STable => (t 0).ref) hsem) (by decide)

end OsSolutions.Kernel
