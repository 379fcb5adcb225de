import OsSolutions.Verification.File.Rules

/-! # Counting references

Every step keeps the count of a file equal to the references that the processes have to it. -/

namespace OsSolutions.Files

open Pointers Transition

variable {Page : Type} {s s' : State Page} {a : Act Page} {p : Fin NPROC}

namespace Core

theorem ready_opened (hp : s.Ready p) (f : Fin NFILE) (omode : UInt32) :
    s.pc p ≠ .opened f omode := by
  rw [hp.2]
  simp

theorem ready_weight (hp : s.Ready p) (cells : Fin NOFILE → Option (Fin NFILE)) (g : Fin NFILE) :
    weight cells (s.pc p) g = count cells g := by
  rw [weight_of_stale _ (ready_stale hp), hp.2]
  rfl

/-- `close` clears the descriptor and closes the file. -/
theorem close (h : Core s) (hp : s.Ready p) {fd : Fin NOFILE} {f : Fin NFILE} {t : FTable Page}
    {e : Option (Page × Bool)} (hfd : s.ofile p fd = some f) (hclosed : s.ftable.Closed f t e) :
    Core ((s.withFiles (s.ofile.set p fd none) t).goto p (.closing e none none)) := by
  refine h.closed hp.1 (fun q hq => OFile.set_of_ne _ _ hq) ?_ hclosed ?_ trivial (ready_opened hp)
    rfl
  · intro d g hd
    rw [OFile.set_self, Pc.live_of_stale rfl] at hd
    rw [Pc.live_of_stale (ready_stale hp)]
    by_cases hdd : d = fd
    · subst hdd
      simp at hd
    · rwa [Function.update_of_ne hdd] at hd
  · intro g
    rw [OFile.set_self, weight_clear hfd rfl, ready_weight hp, weight_of_stale _ rfl]
    rfl

/-- A file in the variables of a call is closed. -/
theorem closeHeld (h : Core s) {f : Fin NFILE} {t : FTable Page} {e : Option (Page × Bool)}
    {next : Option (Page × Bool) → Pc Page} (hdue : Due (s.pc p) f next)
    (hclosed : s.ftable.Closed f t e) : Core ((s.withFiles s.ofile t).goto p (next e)) := by
  have hbusy : s.pc p ≠ .user := by
    intro hpc
    rw [hpc] at hdue
    cases hdue
  refine h.closed (h.busy p hbusy) (fun _ _ => rfl) ?_ hclosed ?_ ?_ ?_ ?_
  · generalize s.pc p = c at hdue
    cases hdue with
    | first => exact fun _ _ hd => hd
    | second => exact fun _ _ hd => hd
  · intro g
    generalize s.pc p = c at hdue
    cases hdue with
    | first =>
        rw [weight_of_stale _ rfl, weight_of_stale _ rfl]
        simp only [Pc.held, Option.some.injEq, eq_comm]
        simp
        omega
    | second =>
        rw [weight_of_stale _ rfl, weight_of_stale _ rfl]
        simp only [Pc.held, Option.some.injEq, eq_comm]
        simp
  · generalize s.pc p = c at hdue
    cases hdue with
    | first => trivial
    | second => trivial
  · intro g omode hpc
    rw [hpc] at hdue
    cases hdue
  · generalize s.pc p = c at hdue
    cases hdue with
    | first => rfl
    | second => rfl

/-- A process that has returned from a call on a pipe. -/
theorem leave (h : Core s) {f : Fin NFILE} {pg : Page} {c : Pipes.Pc}
    (hpc : s.pc p = .inPipe f pg c) : Core (s.goto p .user) :=
  h.goto_of_child hpc (h.busy p (by simp [hpc])) ⟨fun _ => rfl, rfl⟩ trivial (by simp) rfl

/-- A process that goes on in a call on a pipe. -/
theorem stays (h : Core s) {f : Fin NFILE} {pg : Page} {c d : Pipes.Pc}
    (hpc : s.pc p = .inPipe f pg c) (hwrites : d.Writes ↔ c.Writes) (hin : d ≠ .outside) :
    Core (s.goto p (.inPipe f pg d)) := by
  refine h.goto_of_child hpc (h.busy p (by simp [hpc])) ⟨fun _ => rfl, rfl⟩ ?_ (by simp) rfl
  have hknows := (h.place p).knows
  rw [hpc] at hknows
  refine ⟨hin, hknows.2.1, ?_⟩
  rw [hknows.2.2]
  congr 3
  exact propext hwrites.symm

/-- `pipealloc` has set up its files, and they have got descriptors or are to be closed. -/
theorem finishPipe (h : Core s) {f0 f1 : Fin NFILE} (hpc : s.pc p = .pipealloc f0 (some f1))
    (pg : Page) {o : OFile} {c : Pc Page} (hoff : ∀ q, q ≠ p → o q = s.ofile q)
    (hcells : ∀ fd g, o p fd = some g → s.ofile p fd = some g ∨ g = f0 ∨ g = f1)
    (hweight : ∀ g, weight (o p) c g = weight (s.ofile p) (s.pc p) g)
    (hat : ∀ t, At o t p c) (hchild : c.child = none) :
    Core ((s.withFiles o ((s.ftable.modify f0 fun x => x.asPipe pg false).modify f1 fun x =>
      x.asPipe pg true)).goto p c) := by
  have hknows := (h.place p).knows
  rw [hpc] at hknows
  have hfresh0 := hknows.1
  have hfresh1 := hknows.2 f1 rfl
  -- the two files are different, since the only reference to each is this one
  have hne : f0 ≠ f1 := by
    rintro rfl
    have hle := h.weight_le p f0
    rw [weight_of_stale _ (by rw [hpc]; rfl)] at hle
    simp [hpc, Pc.held, hfresh0.ref] at hle
  have hpos : ∀ g, g = f0 ∨ g = f1 → 0 < weight (s.ofile p) (s.pc p) g := by
    intro g hg
    rw [weight_of_stale _ (by rw [hpc]; rfl)]
    rcases hg with rfl | rfl <;> simp [hpc, Pc.held]
  have htable : ∀ g, (g = f0 ∧ ((s.ftable.modify f0 fun x => x.asPipe pg false).modify f1
      fun x => x.asPipe pg true) g = (s.ftable f0).asPipe pg false) ∨
      (g = f1 ∧ ((s.ftable.modify f0 fun x => x.asPipe pg false).modify f1
        fun x => x.asPipe pg true) g = (s.ftable f1).asPipe pg true) ∨
      g ≠ f0 ∧ g ≠ f1 ∧ ((s.ftable.modify f0 fun x => x.asPipe pg false).modify f1
        fun x => x.asPipe pg true) g = s.ftable g := by
    intro g
    by_cases hg0 : g = f0
    · subst hg0
      refine .inl ⟨rfl, ?_⟩
      rw [FTable.modify_of_ne _ hne, FTable.modify_self]
    · by_cases hg1 : g = f1
      · subst hg1
        refine .inr (.inl ⟨rfl, ?_⟩)
        rw [FTable.modify_self, FTable.modify_of_ne _ hg0]
      · refine .inr (.inr ⟨hg0, hg1, ?_⟩)
        rw [FTable.modify_of_ne _ hg1, FTable.modify_of_ne _ hg0]
  refine h.retyped (h.busy p (by simp [hpc])) hoff ?_ ?_ hweight (hat _) hchild
  · intro g
    rcases htable g with ⟨rfl, heq⟩ | ⟨rfl, heq⟩ | ⟨_, _, heq⟩
    · rw [heq]
      exact .inr ⟨hfresh0, hpos g (.inl rfl), hfresh0.ref, good_asPipe hfresh0.ref pg false,
        File.asPipe_type _ _ _⟩
    · rw [heq]
      exact .inr ⟨hfresh1, hpos g (.inr rfl), hfresh1.ref, good_asPipe hfresh1.ref pg true,
        File.asPipe_type _ _ _⟩
    · exact .inl heq
  · intro fd g hfd
    rcases htable g with ⟨rfl, heq⟩ | ⟨rfl, heq⟩ | ⟨hg0, hg1, heq⟩
    · rw [heq]
      exact File.asPipe_type _ _ _
    · rw [heq]
      exact File.asPipe_type _ _ _
    · rw [heq]
      have hold := (hcells fd g hfd).resolve_right (by simp [hg0, hg1])
      rw [← Pc.live_of_stale (by rw [hpc]; rfl : (s.pc p).stale = none) (s.ofile p)] at hold
      exact h.type_ne_none (by simp [hpc]) hold

/-! ## New files -/

theorem secondFile (h : Core s) {f0 f1 : Fin NFILE} (hpc : s.pc p = .pipealloc f0 none)
    (hzero : (s.ftable f1).ref = 0) :
    Core ((s.withFiles s.ofile (s.ftable.setRef f1 1)).goto p (.pipealloc f0 (some f1))) := by
  have hknows := (h.place p).knows
  rw [hpc] at hknows
  refine h.allocated (h.busy p (by simp [hpc])) (by rw [hpc]; rfl) (fun _ _ => rfl) hzero
    (fun _ _ hfd => .inl hfd) ?_ ⟨fresh_setRef hknows.1 hzero, ?_⟩ (by simp [hpc]) rfl
  · intro g
    rw [weight_of_stale _ rfl, weight_of_stale _ (by rw [hpc]; rfl)]
    simp only [hpc, Pc.held, Option.some.injEq, eq_comm]
    simp
    omega
  · intro f hf
    obtain rfl := Option.some.inj hf
    exact h.fresh_of_free hzero

/-- The two files of a pipe get descriptors. -/
theorem piped (h : Core s) {f0 f1 : Fin NFILE} {fd0 fd1 : Fin NOFILE} (pg : Page)
    (hpc : s.pc p = .pipealloc f0 (some f1)) (hfree0 : s.ofile p fd0 = none)
    (hfree1 : (s.ofile.set p fd0 (some f0)) p fd1 = none) :
    Core ((s.withFiles ((s.ofile.set p fd0 (some f0)).set p fd1 (some f1))
      ((s.ftable.modify f0 fun x => x.asPipe pg false).modify f1 fun x =>
        x.asPipe pg true)).goto p .user) := by
  rw [OFile.set_self] at hfree1
  refine h.finishPipe hpc pg ?_ ?_ ?_ (fun _ => trivial) rfl
  · intro q hq
    rw [OFile.set_of_ne _ _ hq, OFile.set_of_ne _ _ hq]
  · intro d g hd
    rw [OFile.set_self, OFile.set_self] at hd
    by_cases hd1 : d = fd1
    · subst hd1
      exact .inr (.inr (by simpa [eq_comm] using hd))
    · rw [Function.update_of_ne hd1] at hd
      by_cases hd0 : d = fd0
      · subst hd0
        exact .inr (.inl (by simpa [eq_comm] using hd))
      · rw [Function.update_of_ne hd0] at hd
        exact .inl hd
  · intro g
    rw [OFile.set_self, OFile.set_self, weight_point hfree1 f1 rfl, weight_point hfree0 f0 rfl,
      weight_of_stale _ rfl, weight_of_stale _ (by rw [hpc]; rfl)]
    simp only [hpc, Pc.held, Option.some.injEq, eq_comm]
    simp
    omega

/-- `sys_open` gets a file and a descriptor. -/
theorem opens (h : Core s) (hp : s.Ready p) {f : Fin NFILE} {fd : Fin NOFILE}
    (hzero : (s.ftable f).ref = 0) (hfree : s.ofile p fd = none) (omode : UInt32) :
    Core ((s.withFiles (s.ofile.set p fd (some f)) (s.ftable.setRef f 1)).goto p
      (.opened f omode)) := by
  refine h.allocated hp.1 (ready_stale hp) (fun q hq => OFile.set_of_ne _ _ hq) hzero ?_ ?_
    ⟨h.fresh_of_free hzero, fd, by simp⟩ (ready_opened hp) rfl
  · intro d g hd
    rw [OFile.set_self] at hd
    by_cases hdd : d = fd
    · subst hdd
      obtain rfl : f = g := by simpa using hd
      exact .inr ⟨rfl, omode, rfl⟩
    · rw [Function.update_of_ne hdd] at hd
      exact .inl hd
  · intro g
    rw [OFile.set_self, weight_point hfree f rfl, ready_weight hp]
    rfl

/-- The file gets its type behind `end_op`. -/
theorem opened (h : Core s) {f : Fin NFILE} {omode : UInt32} (hpc : s.pc p = .opened f omode) :
    Core ((s.withFiles s.ofile (s.ftable.modify f fun x => x.asInode omode)).goto p .user) := by
  have hstale : (s.pc p).stale = none := by rw [hpc]; rfl
  have hknows := (h.place p).knows
  rw [hpc] at hknows
  obtain ⟨hfresh, fd, hfd⟩ := hknows
  refine h.retyped (h.busy p (by simp [hpc])) (fun _ _ => rfl) ?_ ?_ ?_ trivial rfl
  · intro g
    by_cases hg : g = f
    · subst hg
      rw [FTable.modify_self]
      exact .inr ⟨hfresh, weight_pos hstale hfd, hfresh.ref, good_asInode hfresh.ref omode,
        File.asInode_type _ _⟩
    · exact .inl (FTable.modify_of_ne _ hg)
  · intro d g hd
    by_cases hg : g = f
    · subst hg
      rw [FTable.modify_self]
      exact File.asInode_type _ _
    · rw [FTable.modify_of_ne _ hg]
      rw [← Pc.live_of_stale hstale (s.ofile p)] at hd
      refine ((h.place p).typed d g hd).resolve_right ?_
      rintro ⟨omode', heq⟩
      rw [hpc] at heq
      exact hg (Pc.opened.inj heq).1.symm
  · exact weight_congr _ (by rw [hpc]; exact ⟨fun _ => rfl, rfl⟩)

/-! ## The ends of pipes -/

/-- A process that has an end to close sleeps in no pipe. -/
theorem shut_pc [DecidableEq Page] {pg : Page} {writable : Bool} {e : Page × Bool}
    (hpend : (s.pc p).pend = some e) (q : Pipe) : (s.shut pg writable q).pc p = s.pc p := by
  have hpipe : ∀ g, (s.pc p).mapPipe pg g = s.pc p := by
    intro g
    cases hpc : s.pc p with
    | inPipe => rw [hpc] at hpend; cases hpend
    | _ => rfl
  cases writable with
  | true => exact hpipe _
  | false => exact hpipe _

/-- The section of `pipeclose`. -/
theorem shut [DecidableEq Page] (h : Core s) {pg : Page} {writable : Bool} (q : Pipe)
    {e : Page × Bool} (hpend : (s.pc p).pend = some e) :
    Core ((s.shut pg writable q).goto p (s.pc p).settled) := by
  have hshut : Core (s.shut pg writable q) := by
    unfold State.shut
    cases writable with
    | true => exact (h.setPage pg _).wakeReaders pg
    | false => exact (h.setPage pg _).wakeWriters pg
  have hplace : (s.shut pg writable q).pc p = s.pc p := shut_pc hpend q
  have hknows := (hshut.place p).knows
  rw [hplace] at hknows
  cases hpc : s.pc p with
  | closing e f0 f1 =>
      rw [hpc] at hplace
      exact hshut.goto_of_child hplace (hshut.busy p (by simp [hplace])) ⟨fun _ => rfl, rfl⟩
        trivial (by simp) rfl
  | exitClosing fd e =>
      rw [hpc] at hplace hknows
      exact hshut.goto_of_child hplace (hshut.busy p (by simp [hplace])) ⟨fun _ => rfl, rfl⟩
        hknows (by simp) rfl
  | _ =>
      rw [hpc] at hpend
      cases hpend

/-! ## The process table -/

theorem embryo_state (k : Kernel) (np q : Fin NPROC) :
    ((k.embryo np).proc q).state = if q = np then .embryo else (k.proc q).state := by
  by_cases hq : q = np
  · subst hq
    simp [Kernel.embryo]
  · simp [Kernel.embryo, Kernel.modify_proc_of_ne, hq]

theorem idle (h : Core s) (hp : (s.kernel.proc p).state ≠ .runnable) : s.pc p = .user := by
  by_contra hbusy
  exact hp (h.busy p hbusy)

/-- A new process, known to its parent only. -/
theorem fork (h : Core s) (hp : s.Ready p) {np : Fin NPROC}
    (hunused : (s.kernel.proc np).state = .unused) :
    Core ((s.withKernel (s.kernel.embryo np)).goto p (.allocated np)) := by
  have hidle : s.pc np = .user := h.idle (by simp [hunused])
  have hnochild : ∀ q, (s.pc q).child ≠ some np := by
    intro q hq
    have := h.embryo q np hq
    rw [hunused] at this
    cases this
  have hpnp : p ≠ np := by
    rintro rfl
    rw [hp.1] at hunused
    cases hunused
  have hkernel : Core (s.withKernel (s.kernel.embryo np)) := by
    refine h.withKernel ?_ ?_ ?_
    · intro q hq
      rw [embryo_state, if_neg (by rintro rfl; exact hq hidle)]
      exact h.busy q hq
    · intro q hq
      rw [embryo_state] at hq
      split at hq
      · rcases hq with hq | hq <;> cases hq
      · exact h.cleared q hq
    · intro q r hr
      rw [embryo_state, if_neg (by rintro rfl; exact hnochild q hr)]
      exact h.embryo q r hr
  refine hkernel.goto hp.2 ?_ ⟨fun _ => rfl, rfl⟩ (h.cleared np (.inl hunused)) (by simp) ?_
  · change ((s.kernel.embryo np).proc p).state = .runnable
    rw [embryo_state, if_neg hpnp]
    exact hp.1
  · intro r hr
    obtain rfl := Option.some.inj hr
    refine ⟨?_, fun q hq => absurd hq (hnochild q)⟩
    change ((s.kernel.embryo np).proc np).state = .embryo
    rw [embryo_state, if_pos rfl]

/-- The process of a `fork` still has its place when it goes on. -/
theorem child_cond (h : Core s) {np : Fin NPROC} {c : Pc Page}
    (hchild : (s.pc p).child = some np) (hc : c.child = some np) :
    ∀ r, c.child = some r →
      (s.kernel.proc r).state = .embryo ∧ ∀ q, (s.pc q).child = some r → q = p := by
  intro r hr
  obtain rfl := Option.some.inj (hc.symm.trans hr)
  exact ⟨h.embryo p np hchild, fun q hq => h.parent q p np hq hchild⟩

theorem copied (h : Core s) {np : Fin NPROC} (hpc : s.pc p = .allocated np) :
    Core ((s.withKernel (s.kernel.modify np fun x => { x with parent := some p })).goto p
      (.forking np 0)) := by
  have hknows := (h.place p).knows
  rw [hpc] at hknows
  have hgoto : Core (s.goto p (.forking np 0)) :=
    h.goto hpc (h.busy p (by simp [hpc])) ⟨fun _ => rfl, rfl⟩ (fun fd _ => hknows fd) (by simp)
      (h.child_cond (by rw [hpc]; rfl) rfl)
  exact hgoto.modify np (u := fun x => { x with parent := some p }) (fun hq => hgoto.busy np hq)
    (fun hq => hgoto.cleared np hq) fun r hr => hgoto.embryo r np hr

/-- Nobody knows the new process any more. -/
theorem no_child (h : Core s) {np : Fin NPROC} (hchild : (s.pc p).child = some np) (q : Fin NPROC) :
    ((s.goto p .user).pc q).child ≠ some np := by
  by_cases hq : q = p
  · subst hq
    rw [State.goto_self]
    intro hnp
    cases hnp
  · rw [State.goto_of_ne hq]
    exact fun hqnp => hq (h.parent q p np hqnp hchild)

theorem notCopied (h : Core s) {np : Fin NPROC} (hpc : s.pc p = .allocated np) :
    Core ((s.withKernel (s.kernel.release np)).goto p .user) := by
  have hknows := (h.place p).knows
  rw [hpc] at hknows
  have hchild : (s.pc p).child = some np := by rw [hpc]; rfl
  have hgoto : Core (s.goto p .user) :=
    h.goto_of_child hpc (h.busy p (by simp [hpc])) ⟨fun _ => rfl, rfl⟩ trivial (by simp) rfl
  have hembryo : ((s.goto p .user).kernel.proc np).state = .embryo := h.embryo p np hchild
  exact hgoto.modify np (u := fun x => { x with state := .unused })
    (fun hq => absurd (hgoto.idle (by simp [hembryo])) hq) (fun _ => hknows)
    fun r hr => absurd hr (h.no_child hchild r)

theorem forkSkip (h : Core s) {np : Fin NPROC} {i : ℕ} (hpc : s.pc p = .forking np i) :
    Core (s.goto p (.forking np (i + 1))) := by
  have hknows := (h.place p).knows
  rw [hpc] at hknows
  refine h.goto hpc (h.busy p (by simp [hpc])) ⟨fun _ => rfl, rfl⟩ ?_ (by simp)
    (h.child_cond (by rw [hpc]; rfl) rfl)
  exact fun fd hfd => hknows fd (by omega)

theorem forked (h : Core s) {np : Fin NPROC} {i : ℕ} (hpc : s.pc p = .forking np i) :
    Core ((s.withKernel (s.kernel.modify np fun x => { x with state := .runnable })).goto p
      .user) := by
  have hchild : (s.pc p).child = some np := by rw [hpc]; rfl
  have hgoto : Core (s.goto p .user) :=
    h.goto_of_child hpc (h.busy p (by simp [hpc])) ⟨fun _ => rfl, rfl⟩ trivial (by simp) rfl
  exact hgoto.modify np (u := fun x => { x with state := .runnable }) (fun _ => rfl)
    (fun hq => by rcases hq with hq | hq <;> cases hq)
    fun r hr => absurd hr (h.no_child hchild r)

theorem exitSkip (h : Core s) {fd : ℕ} (hpc : s.pc p = .exiting fd) (hfd : fd < NOFILE)
    (hnone : s.ofile p ⟨fd, hfd⟩ = none) : Core (s.goto p (.exiting (fd + 1))) := by
  have hknows := (h.place p).knows
  rw [hpc] at hknows
  refine h.goto_of_child hpc (h.busy p (by simp [hpc])) ⟨fun _ => rfl, rfl⟩ ?_ (by simp) rfl
  intro d hd
  rcases Nat.lt_succ_iff_lt_or_eq.mp hd with hlt | heq
  · exact hknows d hlt
  · rw [show d = ⟨fd, hfd⟩ from Fin.ext heq]
    exact hnone

/-- `exit` closes a file, and the descriptor is still there. -/
theorem exitClose (h : Core s) {fd : ℕ} {f : Fin NFILE} {t : FTable Page}
    {e : Option (Page × Bool)} (hpc : s.pc p = .exiting fd) (hfd : fd < NOFILE)
    (hcell : s.ofile p ⟨fd, hfd⟩ = some f) (hclosed : s.ftable.Closed f t e) :
    Core ((s.withFiles s.ofile t).goto p (.exitClosing ⟨fd, hfd⟩ e)) := by
  have hknows := (h.place p).knows
  have hold : (s.pc p).stale = none := by rw [hpc]; rfl
  rw [hpc] at hknows
  refine h.closed (h.busy p (by simp [hpc])) (fun _ _ => rfl) ?_ hclosed ?_ ?_ (by simp [hpc]) rfl
  · intro d g hd
    rw [Pc.live_of_stale hold]
    exact Pc.of_live hd
  · intro g
    rw [← weight_clear hcell hold g, weight_of_stale _ hold, hpc, weight, Pc.live_exitClosing]
    rfl
  · intro d hd
    exact hknows d hd

/-- The descriptor is cleared behind that. -/
theorem exitClear (h : Core s) {fd : Fin NOFILE} (hpc : s.pc p = .exitClosing fd none) :
    Core ((s.withFiles (s.ofile.set p fd none) s.ftable).goto p (.exiting (fd + 1))) := by
  have hknows := (h.place p).knows
  have hlive : (s.pc p).live (s.ofile p) = Function.update (s.ofile p) fd none := by
    rw [hpc, Pc.live_exitClosing]
  rw [hpc] at hknows
  refine h.files (h.busy p (by simp [hpc])) (fun q hq => OFile.set_of_ne _ _ hq) ?_ h.good
    (fun g => .inl rfl) ⟨?_, ?_⟩ fun np hnp => by cases hnp
  · intro g
    have hold : weight (s.ofile p) (s.pc p) g = count (Function.update (s.ofile p) fd none) g := by
      rw [weight, hlive, hpc]
      rfl
    rw [OFile.set_self, hold, weight_of_stale _ rfl]
    rfl
  · intro d hd
    rw [OFile.set_self]
    by_cases hdfd : d = fd
    · rw [hdfd, Function.update_self]
    · rw [Function.update_of_ne hdfd]
      have hne : (d : ℕ) ≠ fd := fun heq => hdfd (Fin.ext heq)
      exact hknows d (Fin.lt_def.mpr (by omega))
  · intro d g hd
    rw [OFile.set_self, Pc.live_of_stale rfl, ← hlive] at hd
    exact .inl (h.type_ne_none (by simp [hpc]) hd)

theorem reparent_state (k : Kernel) (p q : Fin NPROC) :
    ((k.reparent p).proc q).state = (k.proc q).state := by
  simp only [Kernel.reparent]
  split <;> rfl

/-- An exiting process has no files any more. -/
theorem exited (h : Core s) {fd : ℕ} (hpc : s.pc p = .exiting fd) (hfd : NOFILE ≤ fd) :
    Core ((s.withKernel ((s.kernel.reparent p).modify p fun x =>
      { x with state := .zombie })).goto p .user) := by
  have hknows := (h.place p).knows
  rw [hpc] at hknows
  have hrun := h.busy p (by simp [hpc])
  have hgoto : Core (s.goto p .user) :=
    h.goto_of_child hpc hrun ⟨fun _ => rfl, rfl⟩ trivial (by simp) rfl
  have hreparent : Core ((s.goto p .user).withKernel (s.kernel.reparent p)) := by
    refine hgoto.withKernel ?_ ?_ ?_
    · intro q hq
      rw [reparent_state]
      exact hgoto.busy q hq
    · intro q hq
      rw [reparent_state] at hq
      exact hgoto.cleared q hq
    · intro q np hnp
      rw [reparent_state]
      exact hgoto.embryo q np hnp
  refine hreparent.modify p (u := fun x => { x with state := .zombie }) ?_ ?_ ?_
  · intro hbusy
    exact absurd (State.goto_self s p .user) hbusy
  · exact fun _ d => hknows d (d.isLt.trans_le hfd)
  · intro r hr
    have hembryo := hgoto.embryo r p hr
    change (s.kernel.proc p).state = .embryo at hembryo
    rw [hrun] at hembryo
    cases hembryo

theorem reaped (h : Core s) {np : Fin NPROC} (hzombie : (s.kernel.proc np).state = .zombie) :
    Core (s.withKernel (s.kernel.modify np fun x =>
      { x with pid := 0, parent := none, killed := false, state := .unused })) := by
  refine h.modify np (fun hbusy => absurd (h.idle (by simp [hzombie])) hbusy)
    (fun _ => h.cleared np (.inr hzombie)) fun r hr => ?_
  have hembryo := h.embryo r np hr
  rw [hzombie] at hembryo
  cases hembryo

theorem killed (h : Core s) (q : Fin NPROC) :
    Core ((s.withKernel (s.kernel.modify q fun x =>
      { x with killed := true, state := if x.state = .sleeping then .runnable else x.state })).wake
        q) := by
  refine Core.wake (h.modify q ?_ ?_ ?_) q
  · intro hbusy
    simp [h.busy q hbusy]
  · intro hq
    by_cases hsleep : (s.kernel.proc q).state = .sleeping
    · simp [hsleep] at hq
    · simp only [if_neg hsleep] at hq
      exact h.cleared q hq
  · intro r hr
    simp [h.embryo r q hr]

/-! ## Every step -/

theorem step_of_move [DecidableEq Page] (h : Core s) (hm : Move s a s') : Core s' := by
  cases hm with
  | stay => exact h
  | dup hp hfd hfree => exact h.dup hp hfd hfree
  | close hp hfd hclosed => exact h.close hp hfd hclosed
  | @callRead p fd f pg n hp hfd hend =>
      exact h.goto_of_child hp.2 hp.1 ⟨fun _ => rfl, rfl⟩ ⟨by simp, ⟨fd, hfd⟩, hend⟩ (by simp) rfl
  | @callWrite p fd f pg addr hp hfd hend =>
      exact h.goto_of_child hp.2 hp.1 ⟨fun _ => rfl, rfl⟩ ⟨by simp, ⟨fd, hfd⟩, hend⟩ (by simp) rfl
  | @callInode p fd f addr hp hfd =>
      exact h.goto_of_child hp.2 hp.1 ⟨fun _ => rfl, rfl⟩ ⟨fd, hfd⟩ (by simp) rfl
  | @writesOn p f n m fails hpc =>
      have hknows := (h.place p).knows
      rw [hpc] at hknows
      exact h.goto_of_child hpc (h.busy p (by simp [hpc])) ⟨fun _ => rfl, rfl⟩ hknows (by simp) rfl
  | @written p f n fails hpc =>
      exact h.goto_of_child hpc (h.busy p (by simp [hpc])) ⟨fun _ => rfl, rfl⟩ trivial (by simp) rfl
  | @wrote p f pg addr q q' hpc =>
      have hplace : ((s.wrote pg q' addr .returned).wakeReaders pg).pc p =
          .inPipe f pg (.write addr) := by
        simp [State.wakeReaders, State.wrote, State.accept, State.setPage, hpc, Pc.mapPipe,
          wokenReader]
      exact Core.leave ((h.wrote pg q' addr .returned).wakeReaders pg) hplace
  | gaveUp hpc => exact (h.wrote _ _ _ _).leave hpc
  | @writeSleeps p f pg addr q q' rest hpc =>
      have hplace : ((s.wrote pg q' addr (.asleep rest)).wakeReaders pg).pc p =
          .inPipe f pg (.write addr) := by
        simp [State.wakeReaders, State.wrote, State.accept, State.setPage, hpc, Pc.mapPipe,
          wokenReader]
      exact Core.stays ((h.wrote pg q' addr (.asleep rest)).wakeReaders pg) hplace Iff.rfl
        (by simp)
  | @took p f pg n q q' bytes hpc =>
      have hplace : ((s.took pg q' bytes).wakeWriters pg).pc p = .inPipe f pg (.read n) := by
        simp [State.wakeWriters, State.took, State.deliver, State.setPage, hpc, Pc.mapPipe,
          wokenWriter]
      exact Core.leave ((h.took pg q' bytes).wakeWriters pg) hplace
  | readFails hpc => exact h.leave hpc
  | readSleeps hpc => exact h.stays hpc Iff.rfl (by simp)
  | @firstFile p f0 hp hzero =>
      refine h.allocated hp.1 (ready_stale hp) (fun _ _ => rfl) hzero
        (fun _ _ hfd => .inl hfd) ?_ ⟨h.fresh_of_free hzero, fun f hf => by cases hf⟩
        (ready_opened hp) rfl
      intro g
      rw [ready_weight hp, weight_of_stale _ rfl]
      simp [Pc.held, eq_comm]
  | secondFile hpc hzero => exact h.secondFile hpc hzero
  | noFile hpc =>
      exact h.goto_of_child hpc (h.busy _ (by simp [hpc])) ⟨fun g => by simp [Pc.held], rfl⟩
        trivial (by simp) rfl
  | noPage hpc =>
      exact h.goto_of_child hpc (h.busy _ (by simp [hpc])) ⟨fun g => by simp [Pc.held], rfl⟩
        trivial (by simp) rfl
  | piped hpc hnew hfree0 hfree1 => exact (h.makePipe _ _).piped _ hpc hfree0 hfree1
  | @noDescriptors p f0 f1 pg data hpc hnew =>
      refine (h.makePipe pg data).finishPipe hpc pg (fun _ _ => rfl)
        (fun _ _ hd => .inl hd) ?_ (fun _ => trivial) rfl
      intro g
      change weight (s.ofile p) _ g = weight (s.ofile p) (s.pc p) g
      rw [weight_of_stale _ rfl, weight_of_stale _ (by rw [hpc]; rfl)]
      simp [hpc, Pc.held]
  | opens hp hzero hfree => exact h.opens hp hzero hfree _
  | @noDescriptor p omode f hp hzero =>
      refine h.allocated hp.1 (ready_stale hp) (fun _ _ => rfl) hzero
        (fun _ _ hfd => .inl hfd) ?_ trivial (ready_opened hp) rfl
      intro g
      rw [ready_weight hp, weight_of_stale _ rfl]
      simp [Pc.held, eq_comm]
  | opened hpc => exact h.opened hpc
  | shut hpend hq => exact h.shut _ hpend
  | closeHeld hdue hclosed => exact h.closeHeld hdue hclosed
  | closed hpc =>
      exact h.goto_of_child hpc (h.busy _ (by simp [hpc])) ⟨fun g => by simp [Pc.held], rfl⟩
        trivial (by simp) rfl
  | fork hp hunused => exact h.fork hp hunused
  | copied hpc => exact h.copied hpc
  | notCopied hpc => exact h.notCopied hpc
  | forkSkips hi hpc hfd => exact h.forkSkip hpc
  | forkDups hi hpc hfd => exact h.forkDup hpc hi hfd
  | forked hi hpc => exact h.forked hpc
  | exit hp =>
      exact h.goto_of_child hp.2 hp.1 ⟨fun _ => rfl, rfl⟩
        (fun fd hfd => absurd hfd (Nat.not_lt_zero _)) (by simp) rfl
  | exitSkips hfd hpc hnone => exact h.exitSkip hpc hfd hnone
  | exitCloses hfd hpc hcell hclosed => exact h.exitClose hpc hfd hcell hclosed
  | exitClears hpc => exact h.exitClear hpc
  | exited hfd hpc => exact h.exited hpc hfd
  | wait hp hzombie => exact h.reaped hzombie
  | kill => exact h.killed _

end Core

end OsSolutions.Files
