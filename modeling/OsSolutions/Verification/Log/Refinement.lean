import OsSolutions.Storage.Transactions
import OsSolutions.Transition.Simulation
import OsSolutions.Verification.Log.Control
import OsSolutions.Verification.Log.Recovery

/-! # The log is a store with transactions

The relation between the machine and the store says, for each place in the commit and in
recovery, what the disk stands for and which blocks are dirty. -/

namespace OsSolutions.FsLog

open Storage Transition

abbrev Contents := Store BlockNo Block

variable {area : LogArea} {s s' : State} {t : Contents} {a : Act} {p : Fin NPROC}

/-- What a step shows of itself to the store. -/
def Act.events : Act → List (Event BlockNo Block)
  | .enter _ => [.start]
  | .write _ b data => [.write b data]
  | .endOp _ => [.finish]
  | .crash => [.crash]
  | _ => []

/-- Operations leave the blocks of the log alone, and no call of `log_write` adds a block to a log
that has become full after its tests. -/
def Orderly (area : LogArea) (s : State) : Act → Prop
  | .write _ b _ => ¬ area.Holds b
  | .append p => ∀ logged b, s.pc p = .logging logged b →
      b ∈ s.log.lh ∨ s.log.lh.length < LOGSIZE ∧ s.log.lh.length < area.size - 1
  | _ => True

variable {d d' : Drive} {lh : List BlockNo} {tail : ℕ} {c : Pc} {b : BlockNo}

/-! ## Calls of `log_write` in progress -/

/-- The block of the call of `log_write` that is between the tests and the section. -/
def Pc.logs : Pc → Option BlockNo
  | .logging _ b => some b
  | _ => none

theorem Pc.logs_eq_some (h : c.logs = some b) : ∃ logged, c = .logging logged b := by
  cases c with
  | logging logged b' =>
      obtain rfl : b' = b := Option.some.inj h
      exact ⟨logged, rfl⟩
  | _ => cases h

def State.Pending (s : State) (b : BlockNo) : Prop := ∃ p, (s.pc p).logs = some b

theorem pending_goto (hp : (s.pc p).logs = none) (hc : c.logs = none) :
    (s.goto p c).Pending b ↔ s.Pending b := by
  apply exists_congr
  intro q
  by_cases hq : q = p
  · subst hq
    rw [State.goto_self, hp, hc]
  · rw [State.goto_of_ne hq]

theorem pending_wakeup : s.wakeup.Pending b ↔ s.Pending b := by
  apply exists_congr
  intro q
  by_cases hq : s.pc q = .asleep
  · simp [State.wakeup, hq, Pc.logs]
  · rw [State.wakeup_of_ne hq]

/-- There are none during a commit. -/
theorem Control.not_pending (h : Control s) (hc : s.log.committing = true) : ¬ s.Pending b := by
  rintro ⟨p, hp⟩
  obtain ⟨logged, hpc⟩ := Pc.logs_eq_some hp
  exact h.not_active hc p (hpc ▸ trivial)

theorem Holders.locked_of_pending (h : Holders s) (hb : s.Pending b) : b ∈ s.locked := by
  obtain ⟨p, hp⟩ := hb
  obtain ⟨logged, hpc⟩ := Pc.logs_eq_some hp
  exact h.mem_locked hpc

/-! ## The relation -/

/-- The transaction is in the cache only. -/
structure Gathering (area : LogArea) (d : Drive) (lh : List BlockNo) (t : Contents) : Prop where
  logged : area.Logged d.disk [] t.durable
  dirty : ∀ b, d.dirty b = true ↔ b ∈ lh

/-- The first `tail` blocks of the transaction have their copies in the log. -/
structure Copying (area : LogArea) (d : Drive) (lh : List BlockNo) (t : Contents) (tail : ℕ) :
    Prop extends Gathering area d lh t where
  copies : ∀ i < tail, ∀ b, lh[i]? = some b → d.disk (area.block i) = t.now b

/-- What a process in the commit has done so far. -/
def Place (area : LogArea) (d : Drive) (lh : List BlockNo) (t : Contents) : Pc → Prop
  | .outside | .beginOp | .asleep | .inOp _ | .logging _ _ => True
  | .commit => Gathering area d lh t
  | .writeLog tail => Copying area d lh t tail
  | .writeHead => Copying area d lh t lh.length
  | .installTrans tail => t.now = t.durable ∧ area.Installing d lh tail t.durable
  | .eraseHead => t.now = t.durable ∧ lh = [] ∧ area.Erasing d t.durable
  | .endCommit => lh = [] ∧ Gathering area d lh t

structure Running (area : LogArea) (s : State) (t : Contents) : Prop where
  view : ∀ b, ¬ area.Holds b → s.drive.view b = t.now b
  clean : s.drive.CleanBut s.Pending
  outside : ∀ b, s.Pending b → ¬ area.Holds b
  fits : area.Fits s.log.lh
  drained : s.log.committing = false → s.log.outstanding = 0 → s.log.lh = []
  gathering : s.log.committing = false → Gathering area s.drive s.log.lh t
  place : ∀ p, Place area s.drive s.log.lh t (s.pc p)

/-- What recovery has done so far. -/
def Stage (area : LogArea) (s : State) (t : Contents) : Phase → Prop
  | .readHead => t.now = t.durable ∧ s.drive = .boot s.drive.disk
  | .installTrans tail => t.now = t.durable ∧
      area.Installing s.drive s.log.lh tail t.durable ∧ ∀ b, s.drive.dirty b = false
  | .eraseHead => t.now = t.durable ∧ s.log.lh = [] ∧ area.Erasing s.drive t.durable
  | .up => Running area s t
  | .panicked | .noBuffers => True
  | .overrun => False

structure Refines (area : LogArea) (s : State) (t : Contents) : Prop where
  control : Control s
  holders : Holders s
  active : s.log.outstanding = t.active
  recoverable : ∃ lh, area.Fits lh ∧ area.Logged s.drive.disk lh t.durable
  stage : Stage area s t s.phase

theorem Refines.running (h : Refines area s t) (hup : s.phase = .up) : Running area s t := by
  have hs := h.stage
  rw [hup] at hs
  exact hs

/-- Only locked or dirty buffers differ from the disk, so `bget` may recycle the others. -/
theorem Refines.clean_locked (h : Refines area s t) (hup : s.phase = .up) :
    s.drive.CleanBut (· ∈ s.locked) :=
  (h.running hup).clean.mono fun _ hb => h.holders.locked_of_pending hb

/-- During a commit only dirty buffers differ from the disk. -/
theorem Refines.clean (h : Refines area s t) (hup : s.phase = .up) (hp : (s.pc p).Committing) :
    s.drive.Clean :=
  (h.running hup).clean.mono fun _ hb => h.control.not_pending (h.control.committing_of hp) hb

/-! ## Drives that look alike -/

namespace Alike

theorem gathering (h : d.Alike d') (hd : Gathering area d lh t) : Gathering area d' lh t where
  logged := by rw [h.disk]; exact hd.logged
  dirty := by rw [h.dirty]; exact hd.dirty

theorem installing {v : BlockNo → Block} (h : d.Alike d') (hd : area.Installing d lh tail v) :
    area.Installing d' lh tail v where
  logged := by rw [h.disk]; exact hd.logged
  fits := hd.fits
  clean := h.cleanBut hd.clean
  dirty := by rw [h.dirty]; exact hd.dirty
  done := by rw [h.disk]; exact hd.done

theorem erasing {v : BlockNo → Block} (h : d.Alike d') (hd : area.Erasing d v) :
    area.Erasing d' v where
  home := by rw [h.disk]; exact hd.home
  clean := h.cleanBut hd.clean
  dirty := by rw [h.dirty]; exact hd.dirty

theorem copying (h : d.Alike d') (hd : Copying area d lh t tail) :
    Copying area d' lh t tail where
  toGathering := gathering h hd.toGathering
  copies := by rw [h.disk]; exact hd.copies

theorem place (h : d.Alike d') (hd : Place area d lh t c) : Place area d' lh t c := by
  cases c with
  | outside | beginOp | asleep | inOp | logging => trivial
  | commit => exact gathering h hd
  | writeLog tail => exact copying h hd
  | writeHead => exact copying h hd
  | installTrans tail => exact ⟨hd.1, installing h hd.2⟩
  | eraseHead => exact ⟨hd.1, hd.2.1, erasing h hd.2.2⟩
  | endCommit => exact ⟨hd.1, gathering h hd.2⟩

theorem running (h : s.drive.Alike d) (hs : Running area s t)
    (held : List (Fin NPROC × BlockNo)) :
    Running area ((s.withDrive d).withHeld held) t where
  view b hb := by
    change d.view b = _
    rw [h.view]
    exact hs.view b hb
  clean := h.cleanBut hs.clean
  outside := hs.outside
  fits := hs.fits
  drained := hs.drained
  gathering hc := gathering h (hs.gathering hc)
  place p := place h (hs.place p)

end Alike

/-! ## Steps outside of the commit -/

theorem Place.of_not_committing (h : ¬ c.Committing) : Place area d lh t c := by
  cases c with
  | outside | beginOp | asleep | inOp | logging => trivial
  | _ => exact absurd trivial h

namespace Running

/-- Only the place of one process has changed, which is not in `log_write`. -/
theorem goto (h : Running area s t) (hp : (s.pc p).logs = none) (hlogs : c.logs = none)
    (hc : Place area s.drive s.log.lh t c) : Running area (s.goto p c) t where
  view := h.view
  clean := h.clean.mono fun _ hb => (pending_goto hp hlogs).mpr hb
  outside b hb := h.outside b ((pending_goto hp hlogs).mp hb)
  fits := h.fits
  drained := h.drained
  gathering := h.gathering
  place q := by
    by_cases hq : q = p
    · subst hq
      rw [State.goto_self]
      exact hc
    · rw [State.goto_of_ne hq]
      exact h.place q

/-- The store does not look at the number of operations. -/
theorem withActive (h : Running area s t) (n : ℕ) : Running area s { t with active := n } where
  view := h.view
  clean := h.clean
  outside := h.outside
  fits := h.fits
  drained := h.drained
  gathering hc := ⟨(h.gathering hc).logged, (h.gathering hc).dirty⟩
  place p := by
    have hp := h.place p
    revert hp
    cases s.pc p with
    | commit => exact fun hp => ⟨hp.logged, hp.dirty⟩
    | writeLog tail => exact fun hp => ⟨⟨hp.logged, hp.dirty⟩, hp.copies⟩
    | writeHead => exact fun hp => ⟨⟨hp.logged, hp.dirty⟩, hp.copies⟩
    | endCommit => exact fun hp => ⟨hp.1, hp.2.logged, hp.2.dirty⟩
    | _ => exact id

/-- Outside of the commit nothing is known about the processes. -/
theorem of_gathering (hpc : ∀ p, ¬ (s.pc p).Committing)
    (hview : ∀ b, ¬ area.Holds b → s.drive.view b = t.now b)
    (hclean : s.drive.CleanBut s.Pending) (houtside : ∀ b, s.Pending b → ¬ area.Holds b)
    (hfits : area.Fits s.log.lh) (hdrained : s.log.outstanding = 0 → s.log.lh = [])
    (hgather : Gathering area s.drive s.log.lh t) : Running area s t where
  view := hview
  clean := hclean
  outside := houtside
  fits := hfits
  drained _ := hdrained
  gathering _ := hgather
  place p := .of_not_committing (hpc p)

end Running

/-! ## The commit -/

theorem Gathering.now_eq (h : Gathering area s.drive s.log.lh t) (hrun : Running area s t)
    (hclean : s.drive.Clean) (hb : ¬ area.Holds b) (hmem : b ∉ s.log.lh) :
    t.now b = t.durable b := by
  rw [← hrun.view b hb, hclean b id (Bool.eq_false_iff.mpr (mt (h.dirty b).mp hmem))]
  exact h.logged.home b hb (by simp)

namespace Copying

theorem writeLog (h : Copying area d lh t tail) (hf : area.Fits lh) (hb : lh[tail]? = some b)
    (hview : d.view b = t.now b) (hw : d.Wrote d' (area.block tail) (d.view b)) :
    Copying area d' lh t (tail + 1) where
  logged := by
    rw [hw.disk]
    exact h.logged.copy (hf.holds_block hb) (hf.block_ne_start hb) _
  dirty c := by
    rw [hw.dirty_iff, h.dirty, and_iff_right_iff_imp]
    rintro hc rfl
    exact hf.outside _ hc (hf.holds_block hb)
  copies i hi c hc := by
    rw [hw.disk]
    rcases Nat.lt_or_eq_of_le (Nat.le_of_lt_succ hi) with hlt | rfl
    · rw [Function.update_of_ne]
      · exact h.copies i hlt c hc
      · intro heq
        exact absurd (LogArea.block_inj (hf.lt hc) (hf.lt hb) heq) (Nat.ne_of_lt hlt)
    · obtain rfl : b = c := Option.some.inj (hb.symm.trans hc)
      rw [Function.update_self, hview]

theorem written (h : Copying area d lh t tail) (hb : lh[tail]? = none) :
    Copying area d lh t lh.length where
  toGathering := h.toGathering
  copies i hi := h.copies i (Nat.lt_of_lt_of_le hi (List.getElem?_eq_none_iff.mp hb))

end Copying

/-- The process that commits has gone on. The store stays as it is, or it commits. -/
theorem Refines.work {t' : Contents} (h : Refines area s t) (d : Drive) (lh : List BlockNo)
    (hup : s.phase = .up) (hp : (s.pc p).Committing) (hc : c.Committing)
    (hholders : Holders (((s.withDrive d).withLog { s.log with lh := lh }).goto p c))
    (hactive : t'.active = t.active)
    (hrec : ∃ lh, area.Fits lh ∧ area.Logged d.disk lh t'.durable)
    (hview : ∀ b, ¬ area.Holds b → d.view b = t'.now b) (hclean : d.Clean)
    (hfits : area.Fits lh) (hplace : Place area d lh t' c) :
    Refines area (((s.withDrive d).withLog { s.log with lh := lh }).goto p c) t' := by
  have hctl := h.control.work hup hp hc d lh
  have hcommitting := h.control.committing_of hp
  have hrun : Running area (((s.withDrive d).withLog { s.log with lh := lh }).goto p c) t' := by
    refine ⟨hview, hclean.mono fun _ hb => hb.elim, fun b hb => ?_, hfits, fun hfree => ?_,
      fun hfree => ?_, fun q => ?_⟩
    · exact absurd hb (hctl.not_pending hcommitting)
    · change s.log.committing = false at hfree
      rw [hcommitting] at hfree
      cases hfree
    · change s.log.committing = false at hfree
      rw [hcommitting] at hfree
      cases hfree
    · by_cases hq : q = p
      · subst hq
        rw [State.goto_self]
        exact hplace
      · rw [State.goto_of_ne hq]
        exact .of_not_committing fun hc => hq (h.control.alone q p hc hp)
  refine ⟨hctl, hholders, by rw [hactive]; exact h.active, hrec, ?_⟩
  rw [show (((s.withDrive d).withLog { s.log with lh := lh }).goto p c).phase = .up from hup]
  exact hrun

theorem Refines.writeLog (h : Refines area s t) (hup : s.phase = .up)
    (hp : s.pc p = .writeLog tail) (hb : s.log.lh[tail]? = some b)
    (hd : area.writeLog s.locked tail b s.drive = some d)
    (hholders : Holders ((s.withDrive d).goto p (.writeLog (tail + 1)))) :
    Refines area ((s.withDrive d).goto p (.writeLog (tail + 1))) t := by
  have hrun := h.running hup
  have hclean := h.clean hup (p := p) (hp ▸ trivial)
  have hw := LogArea.writeLog_wrote (h.clean_locked hup) hd
  have hcopy : Copying area s.drive s.log.lh t tail := by
    have hplace := hrun.place p
    rw [hp] at hplace
    exact hplace
  have hview : s.drive.view b = t.now b :=
    hrun.view b (hrun.fits.outside b (List.mem_of_getElem? hb))
  have hnext := hcopy.writeLog hrun.fits hb hview hw
  refine h.work d s.log.lh hup (hp ▸ trivial) (by trivial) hholders rfl
    ⟨[], .nil area, hnext.logged⟩ ?_ (hw.cleanBut hclean) hrun.fits hnext
  intro c hc
  rw [hw.view, Function.update_of_ne, hrun.view c hc]
  rintro rfl
  exact hc (hrun.fits.holds_block hb)

/-- The header reaches the disk and the store commits. -/
theorem Refines.writeHead (h : Refines area s t) (hup : s.phase = .up)
    (hp : s.pc p = .writeHead) (hd : area.writeHead s.locked s.log.lh s.drive = some d)
    (hholders : Holders ((s.withDrive d).goto p (.installTrans 0))) :
    Refines area ((s.withDrive d).goto p (.installTrans 0)) { t with durable := t.now } := by
  have hrun := h.running hup
  have hclean := h.clean hup (p := p) (hp ▸ trivial)
  have hw := LogArea.writeHead_wrote (h.clean_locked hup) hd
  have hcopy : Copying area s.drive s.log.lh t s.log.lh.length := by
    have hplace := hrun.place p
    rw [hp] at hplace
    exact hplace
  have hlogged : area.Logged d.disk s.log.lh t.now := by
    rw [hw.disk]
    apply hcopy.logged.commit hrun.fits
    · intro i b hb
      obtain ⟨hi, -⟩ := List.getElem?_eq_some_iff.mp hb
      exact hcopy.copies i hi b hb
    · intro b hb hmem
      exact hcopy.now_eq hrun hclean hb hmem
  refine h.work d s.log.lh hup (hp ▸ trivial) (by trivial) hholders rfl
    ⟨_, hrun.fits, hlogged⟩ ?_ (hw.cleanBut hclean) hrun.fits ⟨rfl, ?_⟩
  · intro b hb
    rw [hw.view, Function.update_of_ne]
    · exact hrun.view b hb
    · rintro rfl
      exact hb area.holds_start
  · refine ⟨hlogged, hrun.fits, hw.cleanBut hclean, ?_, by simp⟩
    intro b hb
    exact (hcopy.dirty b).mp (hw.dirty_iff.mp hb).2

theorem Refines.install (h : Refines area s t) (hup : s.phase = .up)
    (hp : s.pc p = .installTrans tail) (hb : s.log.lh[tail]? = some b)
    (hd : area.installTrans s.locked tail b s.drive = some d)
    (hholders : Holders ((s.withDrive d).goto p (.installTrans (tail + 1)))) :
    Refines area ((s.withDrive d).goto p (.installTrans (tail + 1))) t := by
  have hrun := h.running hup
  obtain ⟨heq, hinst⟩ : t.now = t.durable ∧ area.Installing s.drive s.log.lh tail t.durable := by
    have hplace := hrun.place p
    rw [hp] at hplace
    exact hplace
  have hw := LogArea.installTrans_wrote (h.clean_locked hup) hd
  have hnext := hinst.next hb hd
  refine h.work d s.log.lh hup (hp ▸ trivial) (by trivial) hholders rfl
    ⟨_, hrun.fits, hnext.logged⟩ ?_ hnext.clean hrun.fits ⟨heq, hnext⟩
  intro c hc
  rw [hw.view, hinst.view_copy hb]
  by_cases hcb : c = b
  · subst hcb
    rw [Function.update_self, heq]
  · rw [Function.update_of_ne hcb, hrun.view c hc]

theorem Refines.eraseHead (h : Refines area s t) (hup : s.phase = .up)
    (hp : s.pc p = .eraseHead) (hd : area.writeHead s.locked s.log.lh s.drive = some d)
    (hholders : Holders ((s.withDrive d).goto p .endCommit)) :
    Refines area ((s.withDrive d).goto p .endCommit) t := by
  have hrun := h.running hup
  obtain ⟨heq, hlh, herase⟩ :
      t.now = t.durable ∧ s.log.lh = [] ∧ area.Erasing s.drive t.durable := by
    have hplace := hrun.place p
    rw [hp] at hplace
    exact hplace
  have hw := LogArea.writeHead_wrote (h.clean_locked hup) hd
  have hlogged : area.Logged d.disk [] t.durable := herase.erase (by rw [← hlh]; exact hd)
  refine h.work d s.log.lh hup (hp ▸ trivial) (by trivial) hholders rfl
    ⟨[], .nil area, hlogged⟩ ?_ (hw.cleanBut herase.clean) hrun.fits ⟨hlh, hlogged, ?_⟩
  · intro b hb
    rw [hw.view, Function.update_of_ne]
    · exact hrun.view b hb
    · rintro rfl
      exact hb area.holds_start
  · intro b
    rw [hw.dirty_iff, herase.dirty b, hlh]
    simp

end OsSolutions.FsLog
