import OsSolutions.Source.SysSem
import OsSolutions.Verification.Kernel.Backed
import Mathlib.Data.Fintype.Prod

/-! # Descriptors through fork, exit and the system calls

Each operation of the kernel keeps the references of the table above the descriptors of the
processes, and leaves every semaphore in use and every descriptor as they were, apart from
the descriptors it closes. -/

namespace OsSolutions.Kernel

open Pointers

variable {k k' : Kernel}

/-- The descriptors of all processes, as pointers into the semaphore table. -/
def cells (k : Kernel) : Fin NPROC × Fin NOSEM → Option (Fin NSEM) :=
  fun i => (k.proc i.1).osem i.2

structure Sound (k : Kernel) : Prop where
  backed : Backed k.sem k.cells
  cleared : ∀ p, (k.proc p).state = .unused ∨ (k.proc p).state = .zombie →
    ∀ sd, (k.proc p).osem sd = none

/-- From one kernel to the next, all descriptors but those in `gone` stay, and so does
every semaphore that had one. -/
structure Keeps (gone : Fin NPROC × Fin NOSEM → Prop) (k k' : Kernel) : Prop where
  cell : ∀ i, ¬ gone i → ∀ s, k.cells i = some s → k'.cells i = some s
  same : ∀ s, 0 < count k.cells s → SameSem (k.sem s) (k'.sem s)

abbrev nothing : Fin NPROC × Fin NOSEM → Prop := fun _ => False

theorem Keeps.refl (gone : Fin NPROC × Fin NOSEM → Prop) (k : Kernel) : Keeps gone k k :=
  ⟨fun _ _ _ h => h, fun _ _ => .refl _⟩

/-! ## Writes to one process -/

@[simp] theorem modify_proc_self (p : Fin NPROC) (f : Proc → Proc) :
    (k.modify p f).proc p = f (k.proc p) := by simp [modify]

theorem modify_proc_of_ne {p q : Fin NPROC} (f : Proc → Proc) (h : q ≠ p) :
    (k.modify p f).proc q = k.proc q := by simp [modify, h]

theorem cells_modify (p : Fin NPROC) {f : Proc → Proc}
    (hf : (f (k.proc p)).osem = (k.proc p).osem) : (k.modify p f).cells = k.cells := by
  funext ⟨q, sd⟩
  by_cases hq : q = p
  · subst hq
    simp only [cells, modify_proc_self, hf]
  · simp only [cells, modify_proc_of_ne f hq]

theorem cells_setOsem (p : Fin NPROC) (sd : Fin NOSEM) (v : Option (Fin NSEM)) :
    (k.setOsem p sd v).cells = Function.update k.cells (p, sd) v := by
  funext ⟨q, i⟩
  by_cases hq : q = p
  · subst hq
    by_cases hi : i = sd
    · subst hi
      simp [cells, setOsem]
    · simp [cells, setOsem, hi]
  · simp [cells, setOsem, modify_proc_of_ne _ hq, hq]

theorem setOsem_state (p q : Fin NPROC) (sd : Fin NOSEM) (v : Option (Fin NSEM)) :
    ((k.setOsem p sd v).proc q).state = (k.proc q).state := by
  by_cases hq : q = p
  · subst hq
    simp [setOsem]
  · simp [setOsem, modify_proc_of_ne _ hq]

namespace Sound

/-- A process changes, but not its descriptors. -/
theorem modify (h : Sound k) (p : Fin NPROC) {f : Proc → Proc}
    (hf : (f (k.proc p)).osem = (k.proc p).osem)
    (hclear : (f (k.proc p)).state = .unused ∨ (f (k.proc p)).state = .zombie →
      ∀ sd, (k.proc p).osem sd = none) : Sound (k.modify p f) := by
  constructor
  · rw [cells_modify p hf]
    exact h.backed
  · intro q hq
    by_cases hqp : q = p
    · subst hqp
      rw [modify_proc_self] at hq ⊢
      rw [hf]
      exact hclear hq
    · rw [modify_proc_of_ne f hqp] at hq ⊢
      exact h.cleared q hq

/-- The table changes below the same descriptors. -/
theorem withSem (h : Sound k) {t : STable} (ht : Backed t k.cells) :
    Sound { k with sem := t } :=
  ⟨ht, h.cleared⟩

/-- A process in use gets a descriptor. -/
theorem point (h : Sound k) {p : Fin NPROC} (sd : Fin NOSEM) {s : Fin NSEM}
    (hp : (k.proc p).state ≠ .unused ∧ (k.proc p).state ≠ .zombie)
    (hroom : (count k.cells s : ℤ) + 1 ≤ (k.sem s).ref) :
    Sound (k.setOsem p sd (some s)) := by
  constructor
  · rw [cells_setOsem]
    exact h.backed.point (p, sd) hroom
  · intro q hq
    rw [setOsem_state] at hq
    by_cases hqp : q = p
    · subst hqp
      exact absurd hq (not_or.mpr hp)
    · rw [setOsem, modify_proc_of_ne _ hqp]
      exact h.cleared q hq

/-- A descriptor is closed. -/
theorem drop (h : Sound k) {p : Fin NPROC} {sd : Fin NOSEM} {s : Fin NSEM}
    (hs : (k.proc p).osem sd = some s) :
    Sound ({ k with sem := (semClose k.sem s).1 }.setOsem p sd none) := by
  constructor
  · rw [cells_setOsem]
    exact h.backed.semClose (i := (p, sd)) hs
  · intro q hq i
    rw [setOsem_state] at hq
    have hnone := h.cleared q hq i
    by_cases hqp : q = p
    · subst hqp
      by_cases hi : i = sd
      · simp [setOsem, hi]
      · simpa [setOsem, hi] using hnone
    · rw [setOsem, modify_proc_of_ne _ hqp]
      exact hnone

end Sound

theorem keeps_modify (p : Fin NPROC) {f : Proc → Proc}
    (hf : (f (k.proc p)).osem = (k.proc p).osem) : Keeps nothing k (k.modify p f) :=
  ⟨fun _ _ _ hi => by rwa [cells_modify p hf], fun _ _ => .refl _⟩

theorem keeps_drop (p : Fin NPROC) (sd : Fin NOSEM) (s : Fin NSEM) :
    Keeps (fun i => i = (p, sd)) k
      ({ k with sem := (semClose k.sem s).1 }.setOsem p sd none) := by
  constructor
  · intro i hi u hu
    rw [cells_setOsem, Function.update_of_ne hi]
    exact hu
  · exact fun u _ => sameSem_semClose k.sem s u

/-! ## The system calls -/

theorem sysSemOpen_sound (h : Sound k) {p : Fin NPROC}
    (hp : (k.proc p).state ≠ .unused ∧ (k.proc p).state ≠ .zombie) (args : Args) :
    Sound (k.sysSemOpen p args).1 ∧ Keeps nothing k (k.sysSemOpen p args).1 := by
  unfold sysSemOpen
  split
  · rename_i name init maxVal _ _ _
    have hbacked := h.backed.semOpen name init maxVal (k.proc p).pid
    have hsame : ∀ s, 0 < count k.cells s →
        SameSem (k.sem s) ((semOpen k.sem name init maxVal (k.proc p).pid).1 s) :=
      fun s hs => h.backed.sameSem_semOpen name init maxVal _ hs
    split
    · rename_i t hopen
      rw [hopen] at hbacked hsame
      exact ⟨h.withSem hbacked.1, fun _ _ _ hi => hi, hsame⟩
    · rename_i t s hopen
      rw [hopen] at hbacked hsame
      simp only
      split
      · rename_i sd hsd
        have hnone : (k.proc p).osem sd = none := by simpa using List.find?_some hsd
        refine ⟨(h.withSem hbacked.1).point sd hp (hbacked.2 s rfl), ?_, hsame⟩
        intro i _ u hu
        have hi : i ≠ (p, sd) := by
          intro heq
          subst heq
          rw [cells, hnone] at hu
          cases hu
        rw [cells_setOsem, Function.update_of_ne hi]
        exact hu
      · exact ⟨h.withSem hbacked.1, fun _ _ _ hi => hi, hsame⟩
  · exact ⟨h, .refl _ k⟩

theorem argsd_osem {p : Fin NPROC} {args : Args} {n : ℕ} {sd : Fin NOSEM} {s : Fin NSEM}
    (h : k.argsd p args n = some (sd, s)) : (k.proc p).osem sd = some s := by
  unfold argsd at h
  split at h
  · cases h
  · split at h
    · obtain ⟨u, hu, heq⟩ := Option.map_eq_some_iff.mp h
      cases heq
      exact hu
    · cases h

theorem sysSemClose_sound (h : Sound k) (p : Fin NPROC) (args : Args) :
    Sound (k.sysSemClose p args).1 ∧
      Keeps (fun i => i.1 = p ∧ ∃ s, k.argsd p args 0 = some (i.2, s)) k
        (k.sysSemClose p args).1 := by
  unfold sysSemClose
  split
  · rename_i sd s hsd
    refine ⟨h.drop (argsd_osem hsd), ?_, (keeps_drop p sd s).same⟩
    intro i hi
    apply (keeps_drop p sd s).cell i
    intro heq
    subst heq
    exact hi ⟨rfl, s, hsd⟩
  · exact ⟨h, .refl _ k⟩

theorem sysSemUnlink_sound (h : Sound k) (p : Fin NPROC) (args : Args) :
    Sound (k.sysSemUnlink p args).1 ∧ Keeps nothing k (k.sysSemUnlink p args).1 := by
  unfold sysSemUnlink
  split
  · rename_i name _
    exact ⟨h.withSem (h.backed.semUnlink (k.proc p).killed name), fun _ _ _ hi => hi,
      fun s hs => h.backed.sameSem_semUnlink (k.proc p).killed name hs⟩
  · exact ⟨h, .refl _ k⟩

end OsSolutions.Kernel
