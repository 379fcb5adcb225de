import OsSolutions.Verification.Log.Atomicity

/-! # What a crash cannot undo, and that recovery comes to its end -/

namespace OsSolutions.FsLog

open Storage Transition

variable {area : LogArea} {s s' : State} {t : Contents} {a : Act} {p : Fin NPROC}

theorem run_refines_store {disk : BlockNo → Block} (hclean : getHead (disk area.start) = some [])
    {as : List Act} (hm : Meets (step area) (Orderly area) (boot disk) as)
    (hr : run (step area) (boot disk) as = some s) : ∃ t, Refines area s t := by
  obtain ⟨_, t, _, _, href⟩ :=
    run_refines (fun _ _ _ _ h hok hs => h.step hok hs) (Refines.boot hclean) hm hr
  exact ⟨t, href⟩

/-! ## Between the transactions -/

/-- No operation is active and none commits. -/
structure Quiet (s : State) : Prop where
  up : s.phase = .up
  outstanding : s.log.outstanding = 0
  committing : s.log.committing = false

theorem Quiet.not_pending (h : Quiet s) (hctl : Control s) (b : BlockNo) : ¬ s.Pending b := by
  rintro ⟨p, hp⟩
  obtain ⟨logged, hpc⟩ := Pc.logs_eq_some hp
  have hone := hctl.one_le (p := p) (hpc ▸ trivial)
  rw [h.outstanding] at hone
  cases hone

/-- Between the transactions everything that readers find is durable. -/
theorem Refines.quiet (h : Refines area s t) (hq : Quiet s) :
    Refines area s (Store.init s.drive.view) := by
  have hrun := h.running hq.up
  have hlh := hrun.drained hq.committing hq.outstanding
  have hgather := hrun.gathering hq.committing
  have hclean : ∀ b, s.drive.view b = s.drive.disk b := by
    intro b
    refine hrun.clean b (hq.not_pending h.control b) (Bool.eq_false_iff.mpr fun hdirty => ?_)
    have hmem := (hgather.dirty b).mp hdirty
    rw [hlh] at hmem
    cases hmem
  have hlogged : area.Logged s.drive.disk [] s.drive.view :=
    ⟨hgather.logged.header, by simp, fun b _ _ => (hclean b).symm⟩
  refine ⟨h.control, h.holders, hq.outstanding, ⟨[], .nil area, hlogged⟩, ?_⟩
  rw [hq.up]
  exact .of_gathering (h.control.not_committing hq.committing) (fun _ _ => rfl) hrun.clean
    hrun.outside hrun.fits (fun _ => hlh) ⟨hlogged, hgather.dirty⟩

/-- From a quiet moment on the machine is a store in which all contents of that moment are
durable, whatever the operations and the crashes after it are. -/
theorem durable_of_quiet {disk : BlockNo → Block} (hclean : getHead (disk area.start) = some [])
    {as cs : List Act} (hm : Meets (step area) (Orderly area) (boot disk) as)
    (hr : run (step area) (boot disk) as = some s) (hq : Quiet s)
    (hm' : Meets (step area) (Orderly area) s cs) (hr' : run (step area) s cs = some s') :
    ∃ bs t, run Store.step (Store.init s.drive.view) bs = some t ∧
      bs.flatMap Storage.Act.events = cs.flatMap Act.events ∧
      (s'.phase = .up → ∀ b, ¬ area.Holds b → s'.drive.view b = t.now b) := by
  obtain ⟨t, href⟩ := run_refines_store hclean hm hr
  obtain ⟨bs, t', hrun, hevents, href'⟩ :=
    run_refines (fun _ _ _ _ h hok hs => h.step hok hs) (href.quiet hq) hm' hr'
  exact ⟨bs, t', hrun, hevents, fun hup b hb => (href'.running hup).view b hb⟩

/-- An operation that writes the same block, a crash and the recovery from it. -/
def undone : List Act :=
  [.call 1, .enter 1, .bread 1 40, .write 1 40 fun _ => 8, .crash, .recover, .recover, .recover]

/-- A later operation is undone by a crash, and the earlier one stays. -/
theorem durable_of_quiet_after_commit : ∃ s s' bs t,
    run (step .mkfs) (boot fun _ _ => 0) (crashInCommit ++ List.replicate 4 .recover) = some s ∧
    run (step .mkfs) s undone = some s' ∧
    s.drive.view 40 0 = 7 ∧ s'.drive.view 40 0 = 7 ∧
    run Store.step (Store.init s.drive.view) bs = some t ∧
    bs.flatMap Storage.Act.events = [.start, .write 40 fun _ => 8, .crash] ∧
    ∀ b, ¬ LogArea.mkfs.Holds b → s'.drive.view b = t.now b := by
  obtain ⟨s, s', hrun, hq, hrun', hup, hfound, hfound'⟩ : ∃ s s',
      run (step .mkfs) (boot fun _ _ => 0) (crashInCommit ++ List.replicate 4 .recover) =
        some s ∧ Quiet s ∧
      run (step .mkfs) s undone = some s' ∧
      s'.phase = .up ∧ s.drive.view 40 0 = 7 ∧ s'.drive.view 40 0 = 7 :=
    ⟨_, _, rfl, ⟨rfl, rfl, rfl⟩, rfl, rfl, rfl, rfl⟩
  have hb : ¬ LogArea.mkfs.Holds 40 := not_holds_mkfs (by decide)
  have hmeets : Meets (step .mkfs) (Orderly .mkfs) (boot fun _ _ => 0)
      (crashInCommit ++ List.replicate 4 .recover) :=
    (meets_append _ _ _).mpr
      ⟨meets_crashInCommit, fun _ _ => meets_of_mem (by simp [Orderly]) _⟩
  obtain ⟨bs, t, hstore, hevents, hview⟩ := durable_of_quiet rfl hmeets hrun hq
    (meets_of_mem (by simp [Orderly, undone, hb]) _) hrun'
  exact ⟨s, s', bs, t, hrun, hrun', hfound, hfound', hstore, hevents, hview hup⟩

/-! ## Recovery -/

/-- While nobody holds a buffer nobody waits for one. -/
theorem pass_eq_some {bs : List BlockNo} {d : Option Drive} {d' : Drive} {next : State → State}
    (hheld : s.held = []) (hnodup : bs.Nodup) (hd : d = some d') :
    s.pass bs d next = some (next (s.withDrive d')) := by
  have hlocked : s.locked = [] := by rw [State.locked, hheld, List.map_nil]
  subst hd
  exact if_pos ⟨hnodup, by simp [hlocked]⟩

theorem Refines.locked_nil (h : Refines area s t) (hdown : s.phase.Down) : s.locked = [] := by
  rw [State.locked, h.holders.down hdown, List.map_nil]

theorem Refines.step_install {tail : ℕ} (h : Refines area s t)
    (hph : s.phase = .installTrans tail) :
    (∃ s', FsLog.step area s .recover = some s' ∧ s'.log.lh = s.log.lh ∧
        s'.phase = .installTrans (tail + 1) ∧ tail < s.log.lh.length) ∨
      ∃ s', FsLog.step area s .recover = some s' ∧ s'.log.lh = [] ∧ s'.phase = .eraseHead ∧
        s.log.lh.length ≤ tail := by
  have hstage := h.stage
  rw [hph] at hstage
  obtain ⟨-, hinst, hdirty⟩ := hstage
  have hdown : s.phase.Down := hph ▸ trivial
  have hstep : FsLog.step area s .recover = s.recoverStep area := rfl
  rw [hstep]
  simp only [State.recoverStep, hph]
  cases hb : s.log.lh[tail]? with
  | some b =>
      have hsome : (area.installTrans [] tail b s.drive).isSome = true :=
        LogArea.installTrans_isSome [] hinst.clean (fun c hc => by simp [hdirty c] at hc)
          (by decide)
      obtain ⟨d, hd⟩ := Option.isSome_iff_exists.mp hsome
      have hnodup : [area.block tail, b].Nodup :=
        by simpa using hinst.fits.ne_of_holds hb (hinst.fits.holds_block hb)
      rw [← h.locked_nil hdown] at hd
      exact .inl ⟨_, pass_eq_some (h.holders.down hdown) hnodup hd, rfl, rfl,
        (List.getElem?_eq_some_iff.mp hb).1⟩
  | none => exact .inr ⟨_, rfl, rfl, rfl, List.getElem?_eq_none_iff.mp hb⟩

theorem Refines.step_erase (h : Refines area s t) (hph : s.phase = .eraseHead) :
    ∃ s', FsLog.step area s .recover = some s' ∧ s'.phase = .up ∧ s'.log = s.log ∧ s'.pc = s.pc ∧
      s'.held = [] := by
  have hstage := h.stage
  rw [hph] at hstage
  obtain ⟨-, -, herase⟩ := hstage
  have hdown : s.phase.Down := hph ▸ trivial
  have hstep : FsLog.step area s .recover = s.recoverStep area := rfl
  have hsome : (area.writeHead [] s.log.lh s.drive).isSome = true :=
    LogArea.writeHead_isSome [] (fun c hc => by simp [herase.dirty c] at hc) (by decide)
  obtain ⟨d, hd⟩ := Option.isSome_iff_exists.mp hsome
  rw [← h.locked_nil hdown] at hd
  rw [hstep]
  simp only [State.recoverStep, hph]
  exact ⟨_, pass_eq_some (h.holders.down hdown) (by simp) hd, rfl, rfl, rfl,
    h.holders.down hdown⟩

/-- The loop of `install_trans` and the erasing of the header. -/
theorem Refines.run_install {tail n : ℕ} (h : Refines area s t)
    (hph : s.phase = .installTrans tail) (hn : s.log.lh.length = tail + n) :
    ∃ s', run (FsLog.step area) s (List.replicate (n + 2) .recover) = some s' ∧ s'.phase = .up := by
  induction n generalizing s tail with
  | zero =>
      rcases h.step_install hph with ⟨s₁, _, _, _, hlt⟩ | ⟨s₁, hs₁, _, hph₁, _⟩
      · omega
      · obtain ⟨s', hs', hup, -⟩ := (h.recover hs₁).step_erase hph₁
        refine ⟨s', ?_, hup⟩
        simp [List.replicate_succ, run_cons, hs₁, hs']
  | succ n ih =>
      rcases h.step_install hph with ⟨s₁, hs₁, hlh, hph₁, _⟩ | ⟨s₁, _, _, _, hle⟩
      · obtain ⟨s', hrun, hup⟩ := ih (h.recover hs₁) hph₁ (by rw [hlh]; omega)
        refine ⟨s', ?_, hup⟩
        rw [List.replicate_succ, run_cons, hs₁]
        exact hrun
      · omega

theorem step_recover_boot {disk : BlockNo → Block} {lh : List BlockNo}
    (h : getHead (disk area.start) = some lh) :
    ∃ s', step area (boot disk) .recover = some s' ∧ s'.log.lh = lh ∧
      s'.phase = .installTrans 0 := by
  have hstep : step area (boot disk) .recover = (boot disk).recoverStep area := rfl
  obtain ⟨hview, hdirty, hclean⟩ := boot_drive disk
  have hsome : (area.readHead [] (Drive.boot disk)).isSome = true := LogArea.readHead_isSome hdirty
  obtain ⟨⟨d, head⟩, hd⟩ := Option.isSome_iff_exists.mp hsome
  obtain ⟨-, rfl⟩ := LogArea.readHead_alike (hclean.mono fun _ hc => hc.elim) hd
  rw [hview, h] at hd
  have hread : area.readHead (boot disk).locked (boot disk).drive = some (d, some lh) := hd
  rw [hstep]
  simp only [State.recoverStep, show (boot disk).phase = .readHead from rfl, hread]
  exact ⟨_, rfl, rfl, rfl⟩

/-- With a clean disk the machine comes up with an empty log. -/
theorem exists_up {disk : BlockNo → Block} (ok : State → Act → Prop)
    (hclean : getHead (disk area.start) = some []) (hok : ∀ s, ok s .recover) :
    ∃ s, Reachable (step area) ok (boot disk) s ∧ Refines area s (Store.init disk) ∧
      s.phase = .up ∧ s.log = .zero ∧ s.held = [] ∧ ∀ p, s.pc p = .outside := by
  have href := Refines.boot hclean
  obtain ⟨s₁, hs₁, hlh₁, hph₁⟩ := step_recover_boot hclean
  have hr₁ : Reachable (step area) ok (boot disk) s₁ := .tail .refl (hok _) hs₁
  have href₁ := href.recover hs₁
  rcases href₁.step_install hph₁ with ⟨_, _, _, _, hlt⟩ | ⟨s₂, hs₂, hlh₂, hph₂, _⟩
  · simp [hlh₁] at hlt
  · have hr₂ := hr₁.tail (hok _) hs₂
    have href₂ := href₁.recover hs₂
    have hpc := href₂.control.down (hph₂ ▸ trivial)
    obtain ⟨s₃, hs₃, hup, hlog, hpcs, hheld⟩ := href₂.step_erase hph₂
    refine ⟨s₃, hr₂.tail (hok _) hs₃, href₂.recover hs₃, hup, ?_, hheld,
      fun p => by rw [hpcs, hpc p]⟩
    have hfree : s₂.log.committing = false := by
      by_contra hc
      obtain ⟨p, hp⟩ := href₂.control.committer.mp (by simpa using hc)
      rw [hpc p] at hp
      exact hp
    have hout : s₂.log.outstanding = 0 := href₂.active
    rw [hlog, Log.zero, ← hlh₂, ← hout, ← hfree]

/-- Nothing is known after an overrun, which does not happen here. -/
theorem Refines.step_crash (h : Refines area s t) :
    FsLog.step area s .crash = some (FsLog.boot s.drive.disk) := by
  refine if_neg fun hph => ?_
  have hstage := h.stage
  rw [hph] at hstage
  exact hstage

/-- Wherever the machine crashes, recovery comes to its end. -/
theorem Refines.recovers (h : Refines area s t) : ∃ n ≤ LOGSIZE + 3, ∃ s',
    run (FsLog.step area) s (.crash :: List.replicate n .recover) = some s' ∧
      s'.phase = .up := by
  obtain ⟨lh, hfits, hlogged⟩ := h.recoverable
  obtain ⟨s₁, hs₁, hlh, hph⟩ := step_recover_boot hlogged.header
  obtain ⟨s', hrun, hup⟩ := (h.crash.recover hs₁).run_install hph (Nat.zero_add _).symm
  refine ⟨s₁.log.lh.length + 3, ?_, s', ?_, hup⟩
  · have := hfits.length_le
    rw [hlh]
    omega
  · rw [run_cons, List.replicate_succ, h.step_crash, Option.bind_some, run_cons, hs₁]
    exact hrun

/-- Recovery does not change what the disk stands for. -/
theorem Refines.run_recover {n : ℕ} (h : Refines area s t)
    (hr : run (FsLog.step area) s (List.replicate n .recover) = some s') : Refines area s' t := by
  induction n generalizing s with
  | zero =>
      obtain rfl : s = s' := by simpa using hr
      exact h
  | succ n ih =>
      rw [List.replicate_succ, run_cons] at hr
      obtain ⟨s₁, hs, hrest⟩ := Option.bind_eq_some_iff.mp hr
      exact ih (h.recover hs) hrest

theorem Refines.run_crash {n : ℕ} (h : Refines area s t)
    (hr : run (FsLog.step area) s (.crash :: List.replicate n .recover) = some s') :
    Refines area s' t.crashed := by
  rw [run_cons, h.step_crash] at hr
  exact h.crash.run_recover hr

/-- After a crash at any place of any run, recovery ends within `LOGSIZE + 3` steps; and when
it is interrupted by another crash at any of its steps, a second recovery ends with the same
contents. -/
theorem recovery_idempotent {disk : BlockNo → Block}
    (hclean : getHead (disk area.start) = some []) {as : List Act}
    (hm : Meets (step area) (Orderly area) (boot disk) as)
    (hr : run (step area) (boot disk) as = some s) :
    ∃ n ≤ LOGSIZE + 3, ∃ s', run (step area) s (.crash :: List.replicate n .recover) = some s' ∧
      s'.phase = .up ∧
      ∀ k r, run (step area) s (.crash :: List.replicate k .recover) = some r →
        ∃ n ≤ LOGSIZE + 3, ∃ s'',
          run (step area) r (.crash :: List.replicate n .recover) = some s'' ∧
          s''.phase = .up ∧ ∀ b, ¬ area.Holds b → s''.drive.view b = s'.drive.view b := by
  obtain ⟨t, href⟩ := run_refines_store hclean hm hr
  obtain ⟨n, hn, s', hrun, hup⟩ := href.recovers
  refine ⟨n, hn, s', hrun, hup, ?_⟩
  intro k r hk
  have hinterrupted := href.run_crash hk
  obtain ⟨m, hm, s'', hrun', hup'⟩ := hinterrupted.recovers
  refine ⟨m, hm, s'', hrun', hup', ?_⟩
  intro b hb
  have hfirst := ((href.run_crash hrun).running hup).view b hb
  have hsecond := ((hinterrupted.run_crash hrun').running hup').view b hb
  rw [hfirst, hsecond]
  rfl

/-- The first crash comes after the header and before the home block. -/
theorem recovery_idempotent_in_commit : ∃ s n s',
    run (step .mkfs) (boot fun _ _ => 0) crashInCommit = some s ∧
    n ≤ LOGSIZE + 3 ∧ run (step .mkfs) s (.crash :: List.replicate n .recover) = some s' ∧
    s'.phase = .up ∧
    ∀ k r, run (step .mkfs) s (.crash :: List.replicate k .recover) = some r →
      ∃ n ≤ LOGSIZE + 3, ∃ s'',
        run (step .mkfs) r (.crash :: List.replicate n .recover) = some s'' ∧
        s''.phase = .up ∧ ∀ b, ¬ LogArea.mkfs.Holds b → s''.drive.view b = s'.drive.view b := by
  obtain ⟨s, hrun⟩ : ∃ s, run (step .mkfs) (boot fun _ _ => 0) crashInCommit = some s := ⟨_, rfl⟩
  obtain ⟨n, hn, s', hrun', hup, hagain⟩ := recovery_idempotent rfl meets_crashInCommit hrun
  exact ⟨s, n, s', hrun, hn, hrun', hup, hagain⟩

end OsSolutions.FsLog
