import OsSolutions.Model.KernelMachine
import OsSolutions.Transition.Run
import OsSolutions.Verification.Kernel.Lifecycle

/-! # No slot is recycled while open

In every state reached from boot the semaphore table counts at least the descriptors on each
slot, so a slot with a descriptor is neither initialised again nor freed. -/

namespace OsSolutions.Machine

open Kernel Pointers Transition

variable {st st' : State} {a : Act}

/-- The step closes the descriptor. -/
def Releases (st : State) (i : Fin NPROC × Fin NOSEM) : Act → Prop
  | .exit p => i.1 = p
  | .semClose p args => i.1 = p ∧ ∃ s, st.kernel.argsd p args 0 = some (i.2, s)
  | _ => False

theorem State.Ready.used {p : Fin NPROC} (h : st.Ready p) :
    (st.kernel.proc p).state ≠ .unused ∧ (st.kernel.proc p).state ≠ .zombie := by
  simp [h.1]

theorem boot_sound : Sound boot.kernel := by
  refine ⟨⟨?_, fun _ _ => rfl⟩, fun _ _ _ => rfl⟩
  intro s
  have hcells : boot.kernel.cells = fun _ => none := rfl
  rw [hcells, count_none]
  exact le_rfl

theorem recheck_sound (h : Sound st.kernel) {p : Fin NPROC}
    (hs : step st (.recheck p) = some st') :
    Sound st'.kernel ∧ Keeps nothing st.kernel st'.kernel := by
  simp only [step] at hs
  split at hs
  · rename_i found _
    have hbacked := h.backed.semUnlinkPass (st.kernel.proc p).killed found
    have hsame : ∀ s, 0 < count st.kernel.cells s → SameSem (st.kernel.sem s)
        ((semUnlinkPass (st.kernel.proc p).killed st.kernel.sem found).1 s) :=
      fun s hpos => h.backed.sameSem_semUnlinkPass (st.kernel.proc p).killed found hpos
    split at hs <;> rename_i heq <;> cases hs <;> rw [heq] at hbacked hsame <;>
      exact ⟨h.withSem hbacked, fun _ _ _ hi => hi, hsame⟩
  · cases hs

theorem step_sound (h : Sound st.kernel) (hs : step st a = some st') :
    Sound st'.kernel ∧ Keeps (fun i => Releases st i a) st.kernel st'.kernel := by
  cases a with
  | semOpen p args =>
      by_cases hp : st.Ready p
      · simp only [step, if_pos hp, Option.some.injEq] at hs
        subst hs
        exact sysSemOpen_sound h hp.used args
      · simp [step, hp] at hs
  | semClose p args =>
      by_cases hp : st.Ready p
      · simp only [step, if_pos hp, Option.some.injEq] at hs
        subst hs
        exact sysSemClose_sound h p args
      · simp [step, hp] at hs
  | semUnlink p args =>
      by_cases hp : st.Ready p
      · have hunlink := sysSemUnlink_sound h p args
        simp only [step, if_pos hp] at hs
        split at hs <;> rename_i heq <;> cases hs <;> rw [heq] at hunlink <;> exact hunlink
      · simp [step, hp] at hs
  | recheck p => exact recheck_sound h hs
  | fork p kalloc copyuvm =>
      by_cases hp : st.Ready p
      · simp only [step, if_pos hp, Option.some.injEq] at hs
        subst hs
        exact fork_sound h p kalloc copyuvm
      · simp [step, hp] at hs
  | exit p =>
      by_cases hp : st.Ready p
      · simp only [step, if_pos hp] at hs
        obtain ⟨k, hk, rfl⟩ := Option.map_eq_some_iff.mp hs
        exact exit_sound h hk
      · simp [step, hp] at hs
  | wait p =>
      by_cases hp : st.Ready p
      · simp only [step, if_pos hp] at hs
        obtain ⟨⟨k, r⟩, hk, rfl⟩ := Option.map_eq_some_iff.mp hs
        exact wait_sound h hk
      · simp [step, hp] at hs
  | kill p pid =>
      by_cases hp : st.Ready p
      · simp only [step, if_pos hp, Option.some.injEq] at hs
        subst hs
        exact kill_sound h pid
      · simp [step, hp] at hs

/-! ## Every run -/

theorem sound_of_reachable (h : Reachable step Free boot st) : Sound st.kernel :=
  h.invariant (P := fun st => Sound st.kernel) boot_sound
    fun _ _ _ hsound _ hs => (step_sound hsound hs).1

/-- A program finds no negative reference count in the table it starts with. -/
theorem ref_nonneg_of_reachable (h : Reachable step Free boot st) (s : Fin NSEM) :
    0 ≤ (st.kernel.sem s).ref := by
  have hle := (sound_of_reachable h).backed.refs s
  omega

/-- Counted references, free slots and unused entries, as in every state after boot. -/
structure Safe (k : Kernel) : Prop where
  refs : ∀ s, (count k.cells s : ℤ) ≤ (k.sem s).ref
  free : ∀ s, (k.sem s).linked = false → (k.sem s).ref = 0
  unused : ∀ p, (k.proc p).state = .unused → ∀ sd, (k.proc p).osem sd = none

/-- Nobody has the slot open. -/
def Unheld (k : Kernel) (s : Fin NSEM) : Prop := ∀ p sd, (k.proc p).osem sd ≠ some s

theorem unheld_of_count {k : Kernel} {s : Fin NSEM} (h : count k.cells s = 0) :
    Unheld k s := by
  intro p sd hs
  have hpos := count_pos (c := k.cells) (i := (p, sd)) hs
  omega

/-- A descriptor designates the same semaphore through every run that does not close it. -/
theorem run_designates (h : Sound st.kernel) {p : Fin NPROC} {sd : Fin NOSEM}
    {s : Fin NSEM} (hsd : (st.kernel.proc p).osem sd = some s) {acts : List Act}
    (hrun : run step st acts = some st')
    (hkept : Meets step (fun st a => ¬ Releases st (p, sd) a) st acts) :
    (st'.kernel.proc p).osem sd = some s ∧ SameSem (st.kernel.sem s) (st'.kernel.sem s) := by
  have hinv : Sound st'.kernel ∧ (st'.kernel.proc p).osem sd = some s ∧
      SameSem (st.kernel.sem s) (st'.kernel.sem s) := by
    apply run_invariant (P := fun u : State => Sound u.kernel ∧
      (u.kernel.proc p).osem sd = some s ∧ SameSem (st.kernel.sem s) (u.kernel.sem s))
      ⟨h, hsd, .refl _⟩ hkept ?_ hrun
    intro u a _ u' ⟨hu, hcell, hsame⟩ hnot hs
    obtain ⟨hu', hkeeps⟩ := step_sound hu hs
    have hpos : 0 < count u.kernel.cells s := count_pos (i := (p, sd)) hcell
    exact ⟨hu', hkeeps.cell (p, sd) hnot s hcell, hsame.trans (hkeeps.same s hpos)⟩
  exact hinv.2

/-- References are counted; `sem_open` only initialises a slot that nobody has open, a
descriptor designates its semaphore until it is closed, and a step only frees a slot that
nobody has open. -/
structure NoRecycling (st : State) : Prop where
  safe : Safe st.kernel
  spot : ∀ name s, semOpenScan st.kernel.sem name (List.finRange NSEM) none =
    .create (some s) → Unheld st.kernel s
  designates : ∀ acts st' p sd s, (st.kernel.proc p).osem sd = some s →
    run step st acts = some st' → Meets step (fun st a => ¬ Releases st (p, sd) a) st acts →
    (st'.kernel.proc p).osem sd = some s ∧ SameSem (st.kernel.sem s) (st'.kernel.sem s)
  freed : ∀ a st' s, step st a = some st' → (st.kernel.sem s).linked = true →
    (st'.kernel.sem s).linked = false → Unheld st.kernel s

theorem unheld_of_spot (h : Sound st.kernel) {name : CString} {s : Fin NSEM}
    (hscan : semOpenScan st.kernel.sem name (List.finRange NSEM) none = .create (some s)) :
    Unheld st.kernel s := by
  apply unheld_of_count
  apply h.backed.count_eq_zero
  apply h.backed.free
  rcases semOpenScan_cases st.kernel.sem name with
    ⟨u, hu, _⟩ | ⟨u, hu, hfree, _⟩ | ⟨hu, _⟩
  · rw [hu] at hscan
    cases hscan
  · rw [hu] at hscan
    cases hscan
    exact hfree
  · rw [hu] at hscan
    cases hscan

theorem unheld_of_freed (h : Sound st.kernel) {s : Fin NSEM} (hs : step st a = some st')
    (hlinked : (st.kernel.sem s).linked = true)
    (hfreed : (st'.kernel.sem s).linked = false) : Unheld st.kernel s := by
  intro p sd hsd
  have hpos : 0 < count st.kernel.cells s := count_pos (i := (p, sd)) hsd
  have hsame := (step_sound h hs).2.same s hpos
  rw [hsame.linked, hlinked] at hfreed
  cases hfreed

/-- No slot is recycled while open, in any state that processes reach from boot. -/
theorem noRecycling_of_reachable (st : State) (h : Reachable step Free boot st) :
    NoRecycling st := by
  have hsound := sound_of_reachable h
  constructor
  · exact ⟨hsound.backed.refs, hsound.backed.free, fun p hp => hsound.cleared p (.inl hp)⟩
  · exact fun _ _ hscan => unheld_of_spot hsound hscan
  · exact fun _ _ _ _ _ hsd hrun hkept => run_designates hsound hsd hrun hkept
  · exact fun _ _ _ hs hlinked hfreed => unheld_of_freed hsound hs hlinked hfreed

/-- The first process opens a semaphore and forks: parent and child share slot 0. -/
theorem noRecycling_of_reachable_fork :
    ∃ st : State, (st.kernel.proc 1).osem 0 = some 0 ∧ (st.kernel.sem 0).ref = 2 ∧
      NoRecycling st := by
  have hrun : run step boot
      [.semOpen 0 ⟨fun _ => some 1, fun _ => some ⟨[115], by decide⟩⟩, .fork 0 true true] =
        some _ := rfl
  exact ⟨_, by decide, by decide, noRecycling_of_reachable _ (reachable_of_run hrun)⟩

end OsSolutions.Machine
