import OsSolutions.Verification.File.Ends

/-! # What no run of the file layer does

No reference count is off, no panic is reached, no page is used behind its last use, and nothing
is left behind by a call, also if it fails halfway. -/

namespace OsSolutions.Files

open Pointers Transition

variable {Page : Type} [DecidableEq Page] {s s' : State Page} {a : Act Page} {p : Fin NPROC}

/-! ## Every step -/

omit [DecidableEq Page] in
theorem Core.fresh_ends {f : Fin NFILE} (hf : (s.ftable f).Fresh) : s.ftable.ends f = none :=
  File.pipeEnd_of_type (by simp [hf.type])

omit [DecidableEq Page] in
/-- The two files of a `pipealloc` are different and have no ends yet. -/
theorem Core.pipealloc_files (h : Core s) {f0 f1 : Fin NFILE}
    (hpc : s.pc p = .pipealloc f0 (some f1)) :
    f0 ≠ f1 ∧ s.ftable.ends f0 = none ∧ s.ftable.ends f1 = none := by
  have hknows := (h.place p).knows
  rw [hpc] at hknows
  refine ⟨?_, fresh_ends hknows.1, fresh_ends (hknows.2 f1 rfl)⟩
  rintro rfl
  have hle := h.weight_le p f0
  rw [weight_of_stale _ (by rw [hpc]; rfl)] at hle
  simp [hpc, Pc.held, hknows.1.ref] at hle

theorem Ends.step_of_move (h : Ends s) (hc : Core s) (hm : Move s a s') : Ends s' := by
  have hready : ∀ {q}, s.Ready q → (s.pc q).pend = none := by
    intro q hq
    rw [hq.2]
    rfl
  cases hm with
  | stay => exact h
  | dup hp hfd hfree => exact h.congr (FTable.ends_setRef ..) (fun _ => rfl) rfl
  | close hp hfd hclosed => exact h.closed hclosed (hready hp) rfl
  | callRead hp hfd hend => exact h.goto (hready hp).symm
  | callWrite hp hfd hend => exact h.goto (hready hp).symm
  | callInode hp => exact h.goto (hready hp).symm
  | writesOn hpc => exact h.goto (by rw [hpc]; rfl)
  | written hpc => exact h.goto (by rw [hpc]; rfl)
  | @wrote p f pg addr q q' hpc hq hw =>
      have hends := pipewrite_ends (s.kernel.proc p).killed addr q
      rw [hw] at hends
      refine ((h.wrote hq hends addr _).wakeReaders pg).goto ?_
      simp [State.wakeReaders, State.wrote, State.accept, State.setPage, hpc, Pc.mapPipe, Pc.pend]
  | @gaveUp p f pg addr q q' rest hpc hq hw =>
      have hends := pipewrite_ends (s.kernel.proc p).killed addr q
      rw [hw] at hends
      refine (h.wrote hq hends addr _).goto ?_
      simp [State.wrote, State.accept, State.setPage, hpc, Pc.pend]
  | @writeSleeps p f pg addr q q' rest hpc hq hw =>
      have hends := pipewrite_ends (s.kernel.proc p).killed addr q
      rw [hw] at hends
      refine ((h.wrote hq hends addr _).wakeReaders pg).goto ?_
      simp [State.wakeReaders, State.wrote, State.accept, State.setPage, hpc, Pc.mapPipe, Pc.pend]
  | @took p f pg n q q' bytes hpc hq hr =>
      have hends := piperead_ends (s.kernel.proc p).killed n q
      rw [hr] at hends
      refine ((h.took hq hends bytes).wakeWriters pg).goto ?_
      simp [State.wakeWriters, State.took, State.deliver, State.setPage, hpc, Pc.mapPipe, Pc.pend]
  | readFails hpc => exact h.goto (by rw [hpc]; rfl)
  | readSleeps hpc => exact h.goto (by rw [hpc]; rfl)
  | firstFile hp => exact h.setRef (hready hp).symm
  | secondFile hpc => exact h.setRef (by rw [hpc]; rfl)
  | noFile hpc => exact h.goto (by rw [hpc]; rfl)
  | noPage hpc => exact h.goto (by rw [hpc]; rfl)
  | piped hpc hnew =>
      obtain ⟨hne, h0, h1⟩ := hc.pipealloc_files hpc
      exact h.alloc hnew hne h0 h1 (by rw [hpc]; rfl) rfl
  | noDescriptors hpc hnew =>
      obtain ⟨hne, h0, h1⟩ := hc.pipealloc_files hpc
      exact h.alloc hnew hne h0 h1 (by rw [hpc]; rfl) rfl
  | opens hp => exact h.setRef (hready hp).symm
  | noDescriptor hp => exact h.setRef (hready hp).symm
  | @opened p f omode hpc =>
      have hknows := (hc.place p).knows
      rw [hpc] at hknows
      have hold : s.ftable.ends f = none := Core.fresh_ends hknows.1
      refine h.files fun e => ?_
      rw [FTable.ends_modify, File.pipeEnd_asInode, ← hold, Function.update_eq_self, hpc]
      rfl
  | shut hpend hq => exact h.shut hpend hq
  | @closeHeld p f next t e hdue hclosed =>
      refine h.closed hclosed ?_ ?_
      · generalize s.pc p = c at hdue
        cases hdue <;> rfl
      · generalize s.pc p = c at hdue
        cases hdue <;> rfl
  | closed hpc => exact h.goto (by rw [hpc]; rfl)
  | fork hp => exact (h.withKernel _).goto (hready hp).symm
  | @copied p np hpc =>
      have hpend : (s.pc p).pend = none := by rw [hpc]; rfl
      exact (h.withKernel _).goto hpend.symm
  | @notCopied p np hpc =>
      have hpend : (s.pc p).pend = none := by rw [hpc]; rfl
      exact (h.withKernel _).goto hpend.symm
  | forkSkips hi hpc => exact h.goto (by rw [hpc]; rfl)
  | forkDups hi hpc => exact h.setRef (by rw [hpc]; rfl)
  | @forked p np i hi hpc =>
      have hpend : (s.pc p).pend = none := by rw [hpc]; rfl
      exact (h.withKernel _).goto hpend.symm
  | exit hp => exact h.goto (hready hp).symm
  | exitSkips hfd hpc => exact h.goto (by rw [hpc]; rfl)
  | exitCloses hfd hpc hcell hclosed => exact h.closed hclosed (by rw [hpc]; rfl) rfl
  | @exitClears p fd hpc => exact h.files fun e => by rw [hpc]; rfl
  | @exited p fd hfd hpc =>
      have hpend : (s.pc p).pend = none := by rw [hpc]; rfl
      exact (h.withKernel _).goto hpend.symm
  | wait => exact h.withKernel _
  | kill => exact (h.withKernel _).wake _

/-! ## Every run -/

omit [DecidableEq Page] in
theorem core_boot : Core (boot : State Page) where
  fault := rfl
  good _ := ⟨fun _ => rfl, nofun⟩
  refs f := (tally_eq_zero_iff.mpr fun _ => by
    rw [weight_of_stale _ rfl]
    simp [boot, Pc.held, count_none]).symm
  place _ := ⟨trivial, nofun⟩
  busy _ h := absurd rfl h
  cleared _ _ _ := rfl
  embryo _ _ := nofun
  parent _ _ _ := nofun

theorem ends_boot : Ends (boot : State Page) where
  one e := by
    have hcount : count (boot : State Page).ftable.ends e = 0 := count_none e
    have htally : (tally fun p => if ((boot : State Page).pc p).pend = some e then 1 else 0) = 0 :=
      tally_eq_zero_iff.mpr fun _ => rfl
    rw [State.owners, hcount, htally]
    rfl
  used _ _ := nofun

theorem invariant (h : Reachable step Free boot s) : Core s ∧ Ends s :=
  h.invariant (P := fun s => Core s ∧ Ends s) ⟨core_boot, ends_boot⟩ fun _ _ _ hi _ hs =>
    have hm := step_cases hi.1 hi.2 hs
    ⟨hi.1.step_of_move hm, hi.2.step_of_move hi.1 hm⟩

/-- No panic of `filedup`, `fileclose`, `fileread` or `filewrite` and no use of a freed page, and
every file has as many references as there are descriptors to it and pointers that calls own: those
of `pipealloc` and of a call that is about to close its files. The descriptor with the file that
`exit` has just closed does not count, and may lead to a file of somebody else's. -/
theorem file_refs (h : Reachable step Free (boot : State Page) s) :
    s.fault = false ∧ ∀ f, (s.ftable f).ref =
      (tally fun p => count ((s.pc p).live (s.ofile p)) f) + tally fun p => (s.pc p).held f := by
  obtain ⟨hcore, _⟩ := invariant h
  refine ⟨hcore.fault, fun f => ?_⟩
  rw [hcore.refs f, ← tally_add]
  rfl

/-- A process makes a pipe and a child, and the child exits. -/
def exitWithPipe : List (Act Bool) :=
  [.pipe 0, .run 0, .kalloc 0 (some (true, fun _ => 0)), .fork 0, .copyuvm 0 true] ++
    List.replicate 17 (.run 0) ++ [.exit 1, .run 1]

/-- The child has closed the read end, and its descriptor is not cleared yet. -/
theorem file_refs_exit : ∃ s : State Bool, run step boot exitWithPipe = some s ∧
    s.fault = false ∧ s.ofile 0 0 = some 0 ∧ s.ofile 1 0 = some 0 ∧ (s.ftable 0).ref = 1 ∧
    (s.ftable 0).ref = (tally fun p => count ((s.pc p).live (s.ofile p)) 0) +
      tally fun p => (s.pc p).held 0 := by
  obtain ⟨s, hrun, hparent, hchild, href⟩ : ∃ s : State Bool,
      run step boot exitWithPipe = some s ∧ s.ofile 0 0 = some 0 ∧ s.ofile 1 0 = some 0 ∧
        (s.ftable 0).ref = 1 := ⟨_, rfl, rfl, rfl, rfl⟩
  obtain ⟨hfault, hcount⟩ := file_refs (reachable_of_run hrun)
  exact ⟨s, hrun, hfault, hparent, hchild, href, hcount 0⟩

/-- The pages that descriptors lead to, by the end. -/
def State.Reaches (s : State Page) (e : Page × Bool) : Prop :=
  ∃ p fd f, s.ofile p fd = some f ∧ s.ftable.ends f = some e

/-- When no process is inside of a call, the files in use are those with a descriptor, an end of a
pipe is open if and only if a descriptor leads to it, and a page is in use if and only if one of
its ends is: the calls that failed halfway have left nothing behind. -/
theorem no_leaks (h : Reachable step Free (boot : State Page) s) (hquiet : ∀ p, s.pc p = .user) :
    (∀ f, 0 < (s.ftable f).ref ↔ ∃ p fd, s.ofile p fd = some f) ∧
      (∀ e, s.isOpen e = true ↔ s.Reaches e) ∧
      ∀ pg, s.pages pg ≠ none ↔ ∃ writable, s.Reaches (pg, writable) := by
  obtain ⟨hcore, hends⟩ := invariant h
  have hheld : ∀ p f, (s.pc p).held f = 0 := by
    intro p f
    rw [hquiet p]
    rfl
  have hused : ∀ f, 0 < (s.ftable f).ref ↔ ∃ p fd, s.ofile p fd = some f := by
    intro f
    constructor
    · intro hpos
      by_contra hnone
      rw [hcore.refs f, tally_eq_zero_iff.mpr] at hpos
      · omega
      · intro p
        rw [weight, hheld p f, Nat.add_zero]
        by_contra hcount
        obtain ⟨fd, hfd⟩ := count_pos_iff.mp (Nat.pos_of_ne_zero hcount)
        exact hnone ⟨p, fd, Pc.of_live hfd⟩
    · rintro ⟨p, fd, hfd⟩
      exact hcore.ref_pos (by rw [hquiet p]; rfl) hfd
  have hopen : ∀ e, s.isOpen e = true ↔ s.Reaches e := by
    intro e
    constructor
    · intro he
      have hone := hends.one e
      have htally : (tally fun p => if (s.pc p).pend = some e then 1 else 0) = 0 := by
        refine tally_eq_zero_iff.mpr fun p => ?_
        rw [hquiet p]
        rfl
      rw [he, if_pos rfl, State.owners, htally, Nat.add_zero] at hone
      obtain ⟨f, hf⟩ := count_pos_iff.mp (by omega : 0 < count s.ftable.ends e)
      obtain ⟨p, fd, hfd⟩ := (hused f).mp ((hcore.good f).ref_pos hf)
      exact ⟨p, fd, f, hfd, hf⟩
    · rintro ⟨_, _, f, _, hf⟩
      exact hends.open_of_file hf
  refine ⟨hused, hopen, fun pg => ?_⟩
  constructor
  · intro hpg
    obtain ⟨q, hq⟩ := Option.ne_none_iff_exists'.mp hpg
    rcases hends.used pg q hq with hflag | hflag
    · exact ⟨false, (hopen _).mp (by simp [State.isOpen, hq, Pipe.isOpen, hflag])⟩
    · exact ⟨true, (hopen _).mp (by simp [State.isOpen, hq, Pipe.isOpen, hflag])⟩
  · rintro ⟨w, hw⟩ hnone
    obtain ⟨q, hq, _⟩ := page_of_open ((hopen _).mpr hw)
    rw [hnone] at hq
    cases hq

/-- A call of `pipe` that finds no memory. -/
theorem no_leaks_no_memory : ∃ s : State Bool,
    run step boot [.pipe 0, .run 0, .kalloc 0 none, .run 0, .run 0, .run 0] = some s ∧
      (∀ p, s.pc p = .user) ∧ ¬ 0 < (s.ftable 0).ref ∧
        ¬ ∃ p fd, s.ofile p fd = some 0 := by
  obtain ⟨s, hrun, hquiet, href⟩ : ∃ s : State Bool,
      run step boot [.pipe 0, .run 0, .kalloc 0 none, .run 0, .run 0, .run 0] = some s ∧
        (∀ p, s.pc p = .user) ∧ ¬ 0 < (s.ftable 0).ref :=
    ⟨_, rfl, by decide, by decide⟩
  have hleaks := no_leaks (reachable_of_run hrun) hquiet
  exact ⟨s, hrun, hquiet, href, fun hcell => href ((hleaks.1 0).mpr hcell)⟩

end OsSolutions.Files
