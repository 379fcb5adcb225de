import OsSolutions.Verification.Kernel.Descriptors

/-! # Processes come and go

A new process starts from a cleared entry and gets a descriptor for each of its parent's; an
exiting one closes all of its own. -/

namespace OsSolutions.Kernel

open Pointers

variable {k k' : Kernel}

/-! ## Allocation -/

/-- The entry `p` taken by `allocproc`. -/
def embryo (k : Kernel) (p : Fin NPROC) : Kernel :=
  { k.modify p fun x => { x with state := .embryo, pid := k.nextpid } with
    nextpid := k.nextpid + 1 }

/-- The entry `p` given back. -/
def release (k : Kernel) (p : Fin NPROC) : Kernel :=
  k.modify p fun x => { x with state := .unused }

theorem allocproc_cases (k : Kernel) (kalloc : Bool) :
    k.allocproc kalloc = (k, none) ∨ ∃ p, (k.proc p).state = .unused ∧
      (k.allocproc kalloc = (k.embryo p, some p) ∨
        k.allocproc kalloc = ((k.embryo p).release p, none)) := by
  unfold allocproc
  split
  · exact .inl rfl
  · rename_i p hfind
    have hunused : (k.proc p).state = .unused := by simpa using List.find?_some hfind
    refine .inr ⟨p, hunused, ?_⟩
    cases kalloc with
    | true => exact .inl rfl
    | false => exact .inr rfl

theorem embryo_cells (k : Kernel) (p : Fin NPROC) : (k.embryo p).cells = k.cells :=
  cells_modify p (f := fun x => { x with state := .embryo, pid := k.nextpid }) rfl

theorem release_cells (k : Kernel) (p : Fin NPROC) : (k.release p).cells = k.cells :=
  cells_modify p rfl

theorem Sound.embryo (h : Sound k) {p : Fin NPROC} (hp : (k.proc p).state = .unused) :
    Sound (k.embryo p) := by
  have hmod := h.modify p (f := fun x => { x with state := .embryo, pid := k.nextpid }) rfl
    fun _ => h.cleared p (.inl hp)
  exact ⟨hmod.backed, hmod.cleared⟩

theorem Sound.release (h : Sound k) {p : Fin NPROC} (hp : ∀ sd, (k.proc p).osem sd = none) :
    Sound (k.release p) :=
  h.modify p rfl fun _ => hp

/-! ## Loops over the descriptors of one process -/

/-- What such a loop leaves alone: the descriptors of the others, and every semaphore. -/
structure OnlyCells (p : Fin NPROC) (k k' : Kernel) : Prop where
  cell : ∀ i : Fin NPROC × Fin NOSEM, i.1 ≠ p → k'.cells i = k.cells i
  state : ∀ q, (k'.proc q).state = (k.proc q).state
  same : ∀ s, SameSem (k.sem s) (k'.sem s)

theorem OnlyCells.refl (p : Fin NPROC) (k : Kernel) : OnlyCells p k k :=
  ⟨fun _ _ => rfl, fun _ => rfl, fun _ => .refl _⟩

theorem OnlyCells.trans {p : Fin NPROC} {k₁ k₂ k₃ : Kernel} (h : OnlyCells p k₁ k₂)
    (g : OnlyCells p k₂ k₃) : OnlyCells p k₁ k₃ :=
  ⟨fun i hi => (g.cell i hi).trans (h.cell i hi), fun q => (g.state q).trans (h.state q),
    fun s => (h.same s).trans (g.same s)⟩

theorem onlyCells_setOsem {t : STable} (ht : ∀ s, SameSem (k.sem s) (t s)) (p : Fin NPROC)
    (sd : Fin NOSEM) (v : Option (Fin NSEM)) :
    OnlyCells p k ({ k with sem := t }.setOsem p sd v) := by
  refine ⟨?_, fun q => setOsem_state p q sd v, ht⟩
  intro i hi
  have hne : i ≠ (p, sd) := by
    intro heq
    subst heq
    exact hi rfl
  rw [cells_setOsem, Function.update_of_ne hne]
  rfl

theorem forkSem_sound (h : Sound k) (curproc : Fin NPROC) {np : Fin NPROC}
    (hnp : (k.proc np).state = .embryo) (i : Fin NOSEM) :
    Sound (forkSem curproc np k i) ∧ OnlyCells np k (forkSem curproc np k i) := by
  unfold forkSem
  split
  · rename_i s hs
    have hpos := h.backed.ref_pos (i := (curproc, i)) hs
    obtain ⟨hbacked, hroom⟩ := h.backed.semdup hpos
    have hused : (k.proc np).state ≠ .unused ∧ (k.proc np).state ≠ .zombie := by
      simp [hnp]
    exact ⟨(h.withSem hbacked).point i hused hroom,
      onlyCells_setOsem (sameSem_semdup k.sem s) np i (some s)⟩
  · exact ⟨h, .refl np k⟩

theorem exitSem_sound (h : Sound k) (curproc : Fin NPROC) (sd : Fin NOSEM) :
    Sound (exitSem curproc k sd) ∧ OnlyCells curproc k (exitSem curproc k sd) := by
  unfold exitSem
  split
  · rename_i s hs
    exact ⟨h.drop hs, onlyCells_setOsem (sameSem_semClose k.sem s) curproc sd none⟩
  · exact ⟨h, .refl curproc k⟩

theorem forkLoop_sound (h : Sound k) (curproc : Fin NPROC) {np : Fin NPROC}
    (hnp : (k.proc np).state = .embryo) (l : List (Fin NOSEM)) :
    Sound (l.foldl (forkSem curproc np) k) ∧
      OnlyCells np k (l.foldl (forkSem curproc np) k) := by
  induction l generalizing k with
  | nil => exact ⟨h, .refl np k⟩
  | cons i l ih =>
      obtain ⟨hsound, honly⟩ := forkSem_sound h curproc hnp i
      obtain ⟨hrest, hcells⟩ := ih hsound ((honly.state np).trans hnp)
      exact ⟨hrest, honly.trans hcells⟩

theorem exitLoop_sound (h : Sound k) (curproc : Fin NPROC) (l : List (Fin NOSEM)) :
    Sound (l.foldl (exitSem curproc) k) ∧
      OnlyCells curproc k (l.foldl (exitSem curproc) k) := by
  induction l generalizing k with
  | nil => exact ⟨h, .refl curproc k⟩
  | cons sd l ih =>
      obtain ⟨hsound, honly⟩ := exitSem_sound h curproc sd
      obtain ⟨hrest, hcells⟩ := ih hsound
      exact ⟨hrest, honly.trans hcells⟩

theorem exitSem_osem (curproc : Fin NPROC) (sd i : Fin NOSEM)
    (h : i = sd ∨ (k.proc curproc).osem i = none) :
    ((exitSem curproc k sd).proc curproc).osem i = none := by
  unfold exitSem
  split
  · by_cases hi : i = sd
    · simp [setOsem, hi]
    · simpa [setOsem, hi] using h.resolve_left hi
  · rename_i hsd
    rcases h with rfl | h
    · exact hsd
    · exact h

/-- The loop of `exit` closes every descriptor that it visits. -/
theorem exitLoop_osem (curproc : Fin NPROC) (i : Fin NOSEM) (l : List (Fin NOSEM))
    (h : i ∈ l ∨ (k.proc curproc).osem i = none) :
    ((l.foldl (exitSem curproc) k).proc curproc).osem i = none := by
  induction l generalizing k with
  | nil => exact h.resolve_left (by simp)
  | cons sd l ih =>
      apply ih
      rcases h with h | h
      · rcases List.mem_cons.mp h with hi | hi
        · exact .inr (exitSem_osem curproc sd i (.inl hi))
        · exact .inl hi
      · exact .inr (exitSem_osem curproc sd i (.inr h))

/-! ## The calls -/

theorem keeps_of_cells_eq (hcells : k'.cells = k.cells) (hsem : k'.sem = k.sem) :
    Keeps nothing k k' := by
  refine ⟨?_, ?_⟩
  · intro i _ s hs
    rwa [hcells]
  · intro s _
    rw [hsem]
    exact .refl _

theorem fork_sound (h : Sound k) (curproc : Fin NPROC) (kalloc copyuvm : Bool) :
    Sound (k.fork curproc kalloc copyuvm).1 ∧
      Keeps nothing k (k.fork curproc kalloc copyuvm).1 := by
  unfold fork
  rcases allocproc_cases k kalloc with halloc | ⟨np, hunused, halloc | halloc⟩
  · rw [halloc]
    exact ⟨h, .refl _ k⟩
  · rw [halloc]
    have hnone : ∀ sd, k.cells (np, sd) = none := h.cleared np (.inl hunused)
    have hembryo := h.embryo hunused
    have hcells := embryo_cells k np
    cases copyuvm with
    | true =>
        have hparent := hembryo.modify np (f := fun x => { x with parent := some curproc }) rfl
          fun _ sd => (congrFun hcells (np, sd)).trans (hnone sd)
        have hstate : (((k.embryo np).modify np fun x =>
            { x with parent := some curproc }).proc np).state = .embryo := by
          simp [embryo]
        obtain ⟨hloop, honly⟩ := forkLoop_sound hparent curproc hstate
          (List.finRange NOSEM)
        have hsame : ((k.embryo np).modify np fun x =>
            { x with parent := some curproc }).cells = k.cells :=
          (cells_modify np rfl).trans hcells
        simp only [if_true]
        refine ⟨hloop.modify np rfl (by simp), ?_, fun s _ => honly.same s⟩
        intro i _ s hs
        have hi : i.1 ≠ np := by
          intro hi
          rw [show i = (np, i.2) from Prod.ext hi rfl, hnone] at hs
          cases hs
        rw [cells_modify np rfl, honly.cell i hi, hsame]
        exact hs
    | false =>
        refine ⟨hembryo.release fun sd => ?_, keeps_of_cells_eq ?_ rfl⟩
        · exact (congrFun hcells (np, sd)).trans (hnone sd)
        · exact (release_cells _ np).trans hcells
  · rw [halloc]
    have hcells := embryo_cells k np
    have hnone : ∀ sd, k.cells (np, sd) = none := h.cleared np (.inl hunused)
    refine ⟨(h.embryo hunused).release fun sd => ?_, keeps_of_cells_eq ?_ rfl⟩
    · exact (congrFun hcells (np, sd)).trans (hnone sd)
    · exact (release_cells _ np).trans hcells

theorem reparent_proc (k : Kernel) (curproc p : Fin NPROC) :
    ((k.reparent curproc).proc p).state = (k.proc p).state ∧
      ((k.reparent curproc).proc p).osem = (k.proc p).osem := by
  simp only [reparent]
  split <;> exact ⟨rfl, rfl⟩

theorem reparent_cells (k : Kernel) (curproc : Fin NPROC) :
    (k.reparent curproc).cells = k.cells := by
  funext i
  exact congrFun (reparent_proc k curproc i.1).2 i.2

theorem Sound.reparent (h : Sound k) (curproc : Fin NPROC) : Sound (k.reparent curproc) := by
  constructor
  · rw [reparent_cells]
    exact h.backed
  · intro p hp
    rw [(reparent_proc k curproc p).1] at hp
    rw [(reparent_proc k curproc p).2]
    exact h.cleared p hp

theorem exit_sound (h : Sound k) {curproc : Fin NPROC} (hs : k.exit curproc = some k') :
    Sound k' ∧ Keeps (fun i => i.1 = curproc) k k' := by
  unfold exit at hs
  split at hs
  · cases hs
  · cases hs
    obtain ⟨hloop, honly⟩ := exitLoop_sound h curproc (List.finRange NOSEM)
    constructor
    · refine (hloop.reparent curproc).modify curproc rfl ?_
      intro _ sd
      rw [(reparent_proc _ curproc curproc).2]
      exact exitLoop_osem curproc sd (List.finRange NOSEM) (.inl (List.mem_finRange sd))
    · refine ⟨?_, fun s _ => honly.same s⟩
      intro i hi s hs
      rw [cells_modify curproc rfl, reparent_cells, honly.cell i hi]
      exact hs

theorem wait_sound (h : Sound k) {curproc : Fin NPROC} {r : ℤ}
    (hs : k.wait curproc = some (k', r)) : Sound k' ∧ Keeps nothing k k' := by
  unfold wait at hs
  split at hs
  · rename_i p hfind
    cases hs
    have hzombie : (k.proc p).state = .zombie := by
      have hp := List.find?_some hfind
      simp only [decide_eq_true_eq] at hp
      exact hp.2
    exact ⟨h.modify p rfl fun _ => h.cleared p (.inr hzombie), keeps_modify p rfl⟩
  · split at hs
    · cases hs
      exact ⟨h, .refl _ k⟩
    · cases hs

theorem kill_sound (h : Sound k) (pid : Int32) :
    Sound (k.kill pid).1 ∧ Keeps nothing k (k.kill pid).1 := by
  unfold kill
  split
  · rename_i p _
    simp only
    refine ⟨h.modify p rfl ?_, keeps_modify p rfl⟩
    intro hstate
    apply h.cleared p
    by_cases hsleep : (k.proc p).state = .sleeping
    · simp [hsleep] at hstate
    · simpa [hsleep] using hstate
  · exact ⟨h, .refl _ k⟩

end OsSolutions.Kernel
