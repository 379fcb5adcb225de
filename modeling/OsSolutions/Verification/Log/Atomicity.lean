import OsSolutions.Verification.Log.Refinement

/-! # Operations are atomic across crashes -/

namespace OsSolutions.FsLog

open Storage Transition

variable {area : LogArea} {s s' : State} {t : Contents} {a : Act} {p : Fin NPROC}

/-! ## Steps of the operations -/

theorem Running.enter (h : Running area s t) (hp : s.pc p = .beginOp)
    (hnonneg : 0 ≤ s.log.outstanding) :
    Running area ((s.withLog { s.log with outstanding := s.log.outstanding + 1 }).goto p (.inOp []))
      { t with active := t.active + 1 } := by
  apply Running.withActive
  refine Running.goto (s := s.withLog { s.log with outstanding := s.log.outstanding + 1 }) ?_
    (congrArg Pc.logs hp) rfl trivial
  refine ⟨h.view, h.clean, h.outside, h.fits, fun _ hout => ?_, h.gathering, h.place⟩
  change s.log.outstanding + 1 = 0 at hout
  omega

/-- While an operation is active nobody commits. -/
theorem Control.not_committing (h : Control s) (hfree : s.log.committing = false) (q : Fin NPROC) :
    ¬ (s.pc q).Committing :=
  fun hq => absurd (h.committing_of hq) (by simp [hfree])

/-- The operation has put new data into its buffer. -/
theorem Running.store (h : Running area s t) (hctl : Control s) {b : BlockNo} {data : Block}
    {logged : List BlockNo} (hp : s.pc p = .inOp logged) (hb : ¬ area.Holds b)
    (hctl' : Control ((s.withDrive (s.drive.store b data)).goto p (.logging logged b))) :
    Running area ((s.withDrive (s.drive.store b data)).goto p (.logging logged b))
      (t.put b data) := by
  have hactive : (s.pc p).Active := hp ▸ trivial
  have hgather := h.gathering (hctl.free hactive)
  have hold : ∀ c, s.Pending c →
      ((s.withDrive (s.drive.store b data)).goto p (.logging logged b)).Pending c := by
    rintro c ⟨q, hq⟩
    refine ⟨q, ?_⟩
    rwa [State.goto_of_ne]
    rintro rfl
    rw [hp] at hq
    cases hq
  have hnew : ((s.withDrive (s.drive.store b data)).goto p (.logging logged b)).Pending b :=
    ⟨p, by rw [State.goto_self]; rfl⟩
  refine .of_gathering (hctl'.not_committing (hctl.free hactive)) ?_ (h.clean.store hold hnew data)
    ?_ h.fits ?_ ⟨hgather.logged, ?_⟩
  · intro c hc
    change (s.drive.store b data).view c = Function.update t.now b data c
    rw [Drive.store_view]
    by_cases hcb : c = b
    · subst hcb
      rw [Function.update_self, Function.update_self]
    · rw [Function.update_of_ne hcb, Function.update_of_ne hcb]
      exact h.view c hc
  · rintro c ⟨q, hq⟩
    by_cases hqp : q = p
    · subst hqp
      rw [State.goto_self] at hq
      obtain rfl : b = c := Option.some.inj hq
      exact hb
    · rw [State.goto_of_ne hqp] at hq
      exact h.outside c ⟨q, hq⟩
  · intro hout
    change s.log.outstanding = 0 at hout
    have hone := hctl.one_le hactive
    omega
  · change ∀ c, (s.drive.store b data).dirty c = true ↔ c ∈ s.log.lh
    rw [Drive.store_dirty]
    exact hgather.dirty

/-- `log_write` has added the block to the transaction. -/
theorem Running.append (h : Running area s t) (hctl : Control s) {b : BlockNo}
    {logged : List BlockNo} (hp : s.pc p = .logging logged b)
    (hroom : b ∈ s.log.lh ∨ s.log.lh.length < LOGSIZE ∧ s.log.lh.length < area.size - 1)
    (hctl' : Control (((s.withDrive (s.drive.pin b)).withLog
      { s.log with lh := Log.record b s.log.lh }).goto p (.inOp (b :: logged)))) :
    Running area (((s.withDrive (s.drive.pin b)).withLog
      { s.log with lh := Log.record b s.log.lh }).goto p (.inOp (b :: logged))) t := by
  have hactive : (s.pc p).Active := hp ▸ trivial
  have hgather := h.gathering (hctl.free hactive)
  have hb : ¬ area.Holds b := h.outside b ⟨p, by rw [hp]; rfl⟩
  refine .of_gathering (hctl'.not_committing (hctl.free hactive)) ?_ (h.clean.pin ?_) ?_ ?_ ?_
    ⟨hgather.logged, ?_⟩
  · change ∀ c, ¬ area.Holds c → (s.drive.pin b).view c = t.now c
    rw [Drive.pin_view]
    exact h.view
  · rintro c ⟨q, hq⟩
    by_cases hqp : q = p
    · subst hqp
      rw [hp] at hq
      exact .inl (Option.some.inj hq).symm
    · exact .inr ⟨q, by rw [State.goto_of_ne hqp]; exact hq⟩
  · rintro c ⟨q, hq⟩
    by_cases hqp : q = p
    · subst hqp
      rw [State.goto_self] at hq
      cases hq
    · rw [State.goto_of_ne hqp] at hq
      exact h.outside c ⟨q, hq⟩
  · refine ⟨?_, ?_, ?_⟩
    · change (Log.record b s.log.lh).length ≤ LOGSIZE
      exact Log.length_record_le_of_room h.fits.length_le (hroom.imp id And.left)
    · change (Log.record b s.log.lh).length < area.size
      have hlt := h.fits.length_lt
      refine Nat.lt_of_le_pred area.header
        (Log.length_record_le_of_room (Nat.le_pred_of_lt hlt) (hroom.imp id And.right))
    · intro c hc
      rcases Log.mem_record.mp hc with rfl | hmem
      · exact hb
      · exact h.fits.outside c hmem
  · intro hout
    change s.log.outstanding = 0 at hout
    have hone := hctl.one_le hactive
    omega
  · intro c
    change (s.drive.pin b).dirty c = true ↔ c ∈ Log.record b s.log.lh
    rw [Drive.pin_dirty, Log.mem_record, ← hgather.dirty]
    by_cases hcb : c = b
    · subst hcb
      simp
    · simp [hcb]

theorem Running.endOp (h : Running area s t) {logged : List BlockNo} (hp : s.pc p = .inOp logged)
    (hfree : s.log.committing = false) :
    Running area ((s.withLog ⟨0, true, s.log.lh⟩).goto p .commit) t := by
  refine Running.goto (s := s.withLog ⟨0, true, s.log.lh⟩) ?_ (congrArg Pc.logs hp) rfl ?_
  · exact ⟨h.view, h.clean, h.outside, h.fits, nofun, nofun, h.place⟩
  · exact h.gathering hfree

/-- A process has left an operation or the commit. -/
theorem Running.leave (h : Running area s t) (hp : (s.pc p).logs = none)
    (hgather : Gathering area s.drive s.log.lh t)
    {log : Log} (hctl : Control ((s.withLog log).wakeup.goto p .outside)) (hlh : log.lh = s.log.lh)
    (hcommit : log.committing = false) (hdrained : log.outstanding = 0 → s.log.lh = []) :
    Running area ((s.withLog log).wakeup.goto p .outside) t := by
  have hpending : ∀ b, ((s.withLog log).wakeup.goto p .outside).Pending b ↔ s.Pending b := by
    intro b
    rw [pending_goto ?_ rfl]
    · exact pending_wakeup
    · by_cases hasleep : s.pc p = .asleep
      · simp [State.wakeup, State.withLog, hasleep, Pc.logs]
      · rw [State.wakeup_of_ne (s := s.withLog log) hasleep]
        exact hp
  refine .of_gathering (hctl.not_committing hcommit) h.view
    (h.clean.mono fun b hb => (hpending b).mpr hb)
    (fun b hb => h.outside b ((hpending b).mp hb)) ?_ ?_ ?_
  · change area.Fits log.lh
    rw [hlh]
    exact h.fits
  · change log.outstanding = 0 → log.lh = []
    rw [hlh]
    exact hdrained
  · change Gathering area s.drive log.lh t
    rw [hlh]
    exact hgather

/-! ## Recovery -/

/-- After power on nothing is in the cache. -/
theorem boot_drive (disk : BlockNo → Block) : (Drive.boot disk).view = disk ∧
    (∀ b, (Drive.boot disk).dirty b = false) ∧ (Drive.boot disk).Clean :=
  ⟨rfl, fun _ => rfl, fun _ _ _ => rfl⟩

theorem Refines.readHead (h : Refines area s t) (hph : s.phase = .readHead) {d : Drive}
    {lh : List BlockNo} (hd : area.readHead s.locked s.drive = some (d, some lh)) :
    Stage area (((s.withDrive d).withLog { s.log with lh := lh }).inPhase
      (.installTrans 0)) t (.installTrans 0) ∧ d.disk = s.drive.disk := by
  have hs := h.stage
  rw [hph] at hs
  obtain ⟨heq, hboot⟩ := hs
  obtain ⟨hview, hdirty, hclean⟩ := boot_drive s.drive.disk
  rw [← hboot] at hview hdirty hclean
  obtain ⟨halike, hlh⟩ := LogArea.readHead_alike (hclean.mono fun _ hc => hc.elim) hd
  obtain ⟨lh', hfits, hlogged⟩ := h.recoverable
  rw [hview, hlogged.header] at hlh
  obtain rfl := Option.some.inj hlh
  have hclean' : ∀ b, d.dirty b = false := by
    intro b
    rw [halike.dirty]
    exact hdirty b
  refine ⟨⟨heq, ⟨?_, hfits, halike.cleanBut hclean, ?_, by simp⟩, hclean'⟩, halike.disk⟩
  · change area.Logged d.disk lh t.durable
    rw [halike.disk]
    exact hlogged
  · intro b hb
    change d.dirty b = true at hb
    rw [hclean' b] at hb
    cases hb

theorem Running.recovered {d : Drive} (herase : area.Erasing s.drive t.durable)
    (heq : t.now = t.durable) (hlh : s.log.lh = []) (hpc : ∀ p, s.pc p = .outside)
    (hd : area.writeHead s.locked s.log.lh s.drive = some d) :
    Running area ((s.withDrive d).inPhase .up) t := by
  have hw := LogArea.writeHead_wrote (herase.clean.mono fun _ hc => hc.elim) hd
  have hpending : ∀ b, ¬ s.Pending b := by
    rintro b ⟨p, hp⟩
    rw [hpc p] at hp
    cases hp
  refine .of_gathering ?_ ?_ ((hw.cleanBut herase.clean).mono fun _ hb => hb.elim)
    (fun b hb => absurd hb (hpending b)) ?_ (fun _ => hlh) ⟨?_, ?_⟩
  · intro p hp
    change (s.pc p).Committing at hp
    rw [hpc p] at hp
    exact hp
  · intro b hb
    change d.view b = t.now b
    rw [hw.view, Function.update_of_ne, herase.clean b id (herase.dirty b), heq]
    · exact herase.home b hb
    · rintro rfl
      exact hb area.holds_start
  · change area.Fits s.log.lh
    rw [hlh]
    exact .nil area
  · exact herase.erase (by rw [← hlh]; exact hd)
  · intro b
    change d.dirty b = true ↔ b ∈ s.log.lh
    rw [hw.dirty_iff, herase.dirty b, hlh]
    simp

theorem Refines.recover (h : Refines area s t) (hs : step area s .recover = some s') :
    Refines area s' t := by
  have hctl := h.control.step hs
  have hholders := h.holders.step hs
  have hstage := h.stage
  cases step_cases hs with
  | @readHead d lh hph hd =>
      obtain ⟨hnext, hdisk⟩ := h.readHead hph hd
      refine ⟨hctl, hholders, h.active, ?_, hnext⟩
      change ∃ lh, area.Fits lh ∧ area.Logged d.disk lh t.durable
      rw [hdisk]
      exact h.recoverable
  | @reinstall tail b d hph hb hd =>
      rw [hph] at hstage
      obtain ⟨heq, hinst, hdirty⟩ := hstage
      have hnext := hinst.next hb hd
      have hw := LogArea.installTrans_wrote (hinst.clean.mono fun _ hc => hc.elim) hd
      refine ⟨hctl, hholders, h.active, ⟨_, hnext.fits, hnext.logged⟩, heq, hnext, ?_⟩
      intro c
      change d.dirty c = false
      rw [hw.dirty]
      by_cases hcb : c = b
      · subst hcb
        rw [Function.update_self]
      · rw [Function.update_of_ne hcb]
        exact hdirty c
  | reinstalled hph hb =>
      rw [hph] at hstage
      exact ⟨hctl, hholders, h.active, h.recoverable, hstage.1, rfl, hstage.2.1.finish hb⟩
  | erase hph hd =>
      rw [hph] at hstage
      obtain ⟨heq, hlh, herase⟩ := hstage
      have hrun := Running.recovered herase heq hlh (h.control.down (hph ▸ trivial)) hd
      exact ⟨hctl, hholders, h.active,
        ⟨[], .nil area, herase.erase (by rw [← hlh]; exact hd)⟩, hrun⟩
  | recoverPanic => exact ⟨hctl, hholders, h.active, h.recoverable, trivial⟩

theorem Refines.crash (h : Refines area s t) :
    Refines area (FsLog.boot s.drive.disk) t.crashed :=
  ⟨.boot _, .boot _, rfl, h.recoverable, rfl, rfl⟩

/-! ## Every step -/

/-- A step that the store does not see. -/
theorem exists_stay {s' : State} (ha : a.events = []) (h : Refines area s' t) :
    ∃ bs t', run Store.step t bs = some t' ∧ bs.flatMap Storage.Act.events = a.events ∧
      Refines area s' t' :=
  ⟨[], t, rfl, by rw [ha]; rfl, h⟩

theorem exists_event {s' : State} {e : Event BlockNo Block} {t' : Contents}
    (ha : a.events = [e]) (ht : t.step (.event e) = some t') (h : Refines area s' t') :
    ∃ bs t', run Store.step t bs = some t' ∧ bs.flatMap Storage.Act.events = a.events ∧
      Refines area s' t' :=
  ⟨[.event e], t', Store.run_event ht, by rw [ha]; rfl, h⟩

theorem Refines.one_le (h : Refines area s t) (hp : (s.pc p).Active) : 0 < t.active := by
  have hone := h.control.one_le hp
  have hactive := h.active
  omega

theorem stage_of_running {s : State} (hup : s.phase = .up) (h : Running area s t) :
    Stage area s t s.phase := by
  rw [hup]
  exact h

theorem Refines.step (h : Refines area s t) (hok : Orderly area s a)
    (hs : step area s a = some s') :
    ∃ bs t', run Store.step t bs = some t' ∧ bs.flatMap Storage.Act.events = a.events ∧
      Refines area s' t' := by
  have hctl := h.control.step hs
  have hholders := h.holders.step hs
  have hactive := h.active
  cases step_cases hs with
  | @bread p b d x hup _ _ hd =>
      obtain ⟨halike, -⟩ := Drive.bread_alike (h.clean_locked hup) hd
      refine exists_stay rfl ⟨hctl, hholders, h.active, ?_, ?_⟩
      · change ∃ lh, area.Fits lh ∧ area.Logged d.disk lh t.durable
        rw [halike.disk]
        exact h.recoverable
      · exact stage_of_running hup (Alike.running halike (h.running hup) _)
  | @brelse p b hup =>
      exact exists_stay rfl ⟨hctl, hholders, h.active, h.recoverable,
        stage_of_running hup (Alike.running (.brelse _ _) (h.running hup) _)⟩
  | breadPanic | commitPanic =>
      exact exists_stay rfl ⟨hctl, hholders, h.active, h.recoverable, trivial⟩
  | @call p hup hp | @sleep p hup hp =>
      exact exists_stay rfl ⟨hctl, hholders, h.active, h.recoverable,
        stage_of_running hup ((h.running hup).goto (congrArg Pc.logs hp) rfl trivial)⟩
  | @enter p hup hp hfree hroom =>
      refine exists_event rfl (Store.step_start t) ⟨hctl, hholders, ?_, h.recoverable,
        stage_of_running hup ((h.running hup).enter hp (by omega))⟩
      change s.log.outstanding + 1 = ((t.active + 1 : ℕ) : ℤ)
      omega
  | @write p b data logged hup hp =>
      have hone := h.one_le (p := p) (hp ▸ trivial)
      exact exists_event rfl (Store.step_write hone)
        ⟨hctl, hholders, h.active, h.recoverable,
          stage_of_running hup ((h.running hup).store h.control hp hok hctl)⟩
  | @writePanic p b data logged hup hp =>
      have hone := h.one_le (p := p) (hp ▸ trivial)
      exact exists_event rfl (Store.step_write hone)
        ⟨hctl, hholders, h.active, h.recoverable, trivial⟩
  | @append p logged b hup hp =>
      exact exists_stay rfl ⟨hctl, hholders, h.active, h.recoverable,
        stage_of_running hup ((h.running hup).append h.control hp (hok logged b hp) hctl)⟩
  | @overrun p logged b hup hp hnone =>
      have hroom := (hok logged b hp).imp id And.left
      rw [Log.logWrite_of_room (h.running hup).fits.length_le hroom] at hnone
      cases hnone
  | @endOp p logged hup hp _ hfree hone =>
      refine exists_event rfl (Store.step_finish (h.one_le (p := p) (hp ▸ trivial)))
        ⟨hctl, hholders, ?_, h.recoverable,
          stage_of_running hup (((h.running hup).endOp hp hfree).withActive _)⟩
      change (0 : ℤ) = ((t.active - 1 : ℕ) : ℤ)
      omega
  | @leave p logged hup hp hfree hmore =>
      have hone := h.one_le (p := p) (hp ▸ trivial)
      refine exists_event rfl (Store.step_finish hone) ⟨hctl, hholders, ?_, h.recoverable, ?_⟩
      · change s.log.outstanding - 1 = ((t.active - 1 : ℕ) : ℤ)
        omega
      · refine stage_of_running hup (Running.withActive ?_ _)
        refine (h.running hup).leave (congrArg Pc.logs hp) ((h.running hup).gathering hfree) hctl
          rfl hfree fun hz => ?_
        change s.log.outstanding - 1 = 0 at hz
        omega
  | @endPanic p logged hup hp hcommit =>
      exact absurd (hp ▸ trivial : (s.pc p).Active) (h.control.not_active hcommit p)
  | @nothing p hup hp hlh =>
      have hplace := (h.running hup).place p
      rw [hp] at hplace
      refine exists_stay rfl (h.work s.drive s.log.lh hup (hp ▸ trivial) (by trivial) hholders rfl
        h.recoverable (h.running hup).view (h.clean hup (p := p) (hp ▸ trivial))
        (h.running hup).fits ?_)
      exact ⟨hlh, hplace⟩
  | @begin p hup hp hlh =>
      have hplace := (h.running hup).place p
      rw [hp] at hplace
      refine exists_stay rfl (h.work s.drive s.log.lh hup (hp ▸ trivial) (by trivial) hholders rfl
        h.recoverable (h.running hup).view (h.clean hup (p := p) (hp ▸ trivial))
        (h.running hup).fits ?_)
      exact ⟨hplace, fun i hi => absurd hi (Nat.not_lt_zero i)⟩
  | writeLog hup hp hb hd => exact exists_stay rfl (h.writeLog hup hp hb hd hholders)
  | @written p tail hup hp hb =>
      have hplace := (h.running hup).place p
      rw [hp] at hplace
      exact exists_stay rfl (h.work s.drive s.log.lh hup (hp ▸ trivial) (by trivial) hholders rfl
        h.recoverable (h.running hup).view (h.clean hup (p := p) (hp ▸ trivial))
        (h.running hup).fits (Copying.written hplace hb))
  | @writeHead p d hup hp hd =>
      have hidle : t.active = 0 := by
        have := h.control.idle (h.control.committing_of (hp ▸ trivial : (s.pc p).Committing))
        omega
      exact ⟨[.commit], _, by rw [run_cons, Store.step_commit hidle]; rfl, rfl,
        h.writeHead hup hp hd hholders⟩
  | install hup hp hb hd => exact exists_stay rfl (h.install hup hp hb hd hholders)
  | @installed p tail hup hp hb =>
      have hplace := (h.running hup).place p
      rw [hp] at hplace
      refine exists_stay rfl (h.work s.drive [] hup (hp ▸ trivial) (by trivial) hholders rfl
        h.recoverable (h.running hup).view (h.clean hup (p := p) (hp ▸ trivial)) (.nil area) ?_)
      exact ⟨hplace.1, rfl, hplace.2.finish hb⟩
  | eraseHead hup hp hd => exact exists_stay rfl (h.eraseHead hup hp hd hholders)
  | @endCommit p hup hp =>
      have hplace := (h.running hup).place p
      rw [hp] at hplace
      refine exists_stay rfl ⟨hctl, hholders, h.active, h.recoverable, stage_of_running hup ?_⟩
      exact (h.running hup).leave (congrArg Pc.logs hp) hplace.2 hctl rfl rfl fun _ => hplace.1
  | readHead | reinstall | reinstalled | erase | recoverPanic =>
      exact exists_stay rfl (h.recover hs)
  | crash => exact exists_event rfl rfl h.crash

/-- The blocks behind the log of `mkfs`. -/
theorem not_holds_mkfs {b : BlockNo} (h : 32 ≤ b.toNat) : ¬ LogArea.mkfs.Holds b := by
  rintro ⟨i, hi, rfl⟩
  have hlt : i < 30 := hi
  simp only [LogArea.mkfs, UInt32.toNat_add, UInt32.toNat_ofNat', UInt32.reduceToNat] at h
  omega

/-- One operation, and a crash right after its header has reached the disk. -/
def crashInCommit : List Act :=
  [.recover, .recover, .recover, .call 0, .enter 0, .bread 0 40, .write 0 40 fun _ => 7] ++
    [.append 0, .brelse 0 40, .endOp 0, .commit 0, .commit 0, .commit 0, .commit 0, .crash]

theorem meets_crashInCommit :
    Meets (FsLog.step .mkfs) (Orderly .mkfs) (FsLog.boot fun _ _ => 0) crashInCommit := by
  have hb : ¬ LogArea.mkfs.Holds 40 := not_holds_mkfs (by decide)
  refine (meets_append _ _ _).mpr ⟨meets_of_mem (by simp [Orderly, hb]) _, fun s hrun => ?_⟩
  -- the log is empty before the section of `log_write`
  have hlh : s.log.lh = [] := by
    obtain rfl := Option.some.inj (hrun.symm.trans rfl)
    rfl
  refine fun s' _ => ⟨fun logged b _ => .inr ?_, meets_of_mem (by simp [Orderly]) _⟩
  rw [hlh]
  decide

/-- A formatted disk is switched on. -/
theorem Refines.boot {disk : BlockNo → Block} (h : getHead (disk area.start) = some []) :
    Refines area (boot disk) (Store.init disk) :=
  ⟨.boot disk, .boot disk, rfl, ⟨[], .nil area, h, by simp, fun _ _ _ => rfl⟩, rfl, rfl⟩

/-- Every run in which the log does not become too full, with crashes at any places, is matched by
a run of the store: the same operations, writes and crashes, and commits only while no operation
is active. When the machine is up, readers find what the store holds. -/
theorem crash_atomic {disk : BlockNo → Block} (hclean : getHead (disk area.start) = some [])
    {as : List Act} (hm : Meets (FsLog.step area) (Orderly area) (FsLog.boot disk) as)
    (hr : run (FsLog.step area) (FsLog.boot disk) as = some s) :
    ∃ bs t, run Store.step (Store.init disk) bs = some t ∧
      bs.flatMap Storage.Act.events = as.flatMap Act.events ∧
      (s.phase = .up → ∀ b, ¬ area.Holds b → s.drive.view b = t.now b) := by
  obtain ⟨bs, t, hrun, hevents, href⟩ :=
    run_refines (fun _ _ _ _ h hok hs => h.step hok hs) (Refines.boot hclean) hm hr
  exact ⟨bs, t, hrun, hevents, fun hup b hb => (href.running hup).view b hb⟩

theorem crash_atomic_in_commit : ∃ s bs t,
    run (FsLog.step .mkfs) (FsLog.boot fun _ _ => 0)
      (crashInCommit ++ List.replicate 4 .recover) = some s ∧
    s.phase = .up ∧ s.drive.view 40 0 = 7 ∧
    run Store.step (Store.init fun _ _ => 0) bs = some t ∧
    bs.flatMap Storage.Act.events = [.start, .write 40 fun _ => 7, .finish, .crash] ∧
    ∀ b, ¬ LogArea.mkfs.Holds b → s.drive.view b = t.now b := by
  obtain ⟨s, hrun, hup, hfound⟩ : ∃ s, run (FsLog.step .mkfs) (FsLog.boot fun _ _ => 0)
      (crashInCommit ++ List.replicate 4 .recover) = some s ∧
        s.phase = .up ∧ s.drive.view 40 0 = 7 := ⟨_, rfl, rfl, rfl⟩
  have hmeets : Meets (FsLog.step .mkfs) (Orderly .mkfs) (FsLog.boot fun _ _ => 0)
      (crashInCommit ++ List.replicate 4 .recover) :=
    (meets_append _ _ _).mpr
      ⟨meets_crashInCommit, fun _ _ => meets_of_mem (by simp [Orderly]) _⟩
  obtain ⟨bs, t, hstore, hevents, hview⟩ := crash_atomic rfl hmeets hrun
  exact ⟨s, bs, t, hrun, hup, hfound, hstore, hevents, hview hup⟩

end OsSolutions.FsLog
