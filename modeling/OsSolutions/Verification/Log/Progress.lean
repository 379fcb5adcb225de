import OsSolutions.Verification.Log.Durability

/-! # `begin_op` does not wait in vain

When the other processes finish their calls of `log_write`, release their buffers, end their
operations and commit, whoever waits in `begin_op` is awake and can go on. -/

namespace OsSolutions.FsLog

open Transition

variable {area : LogArea} {s s' : State} {t : Contents} {a : Act} {p q : Fin NPROC}
  {b : BlockNo}

def Waits (s : State) (p : Fin NPROC) : Prop := s.pc p = .beginOp ∨ s.pc p = .asleep

/-- Another process finishes a call of `log_write`, releases a buffer, ends its operation or goes
on with the commit. -/
def OfOther (p : Fin NPROC) (a : Act) : Prop :=
  ∃ q ≠ p, a = .append q ∨ (∃ b, a = .brelse q b) ∨ a = .endOp q ∨ a = .commit q

/-- The number of calls of `log_write` between the tests and the section. -/
def State.logging (s : State) : ℕ := tally fun p => if (s.pc p).logs.isSome then 1 else 0

/-- There is room in the log area, and in the cache, for the blocks that are logged or will be
when these calls are finished. -/
structure Spare (area : LogArea) (s : State) : Prop where
  room : s.log.lh.length + s.logging < area.size
  buffers : s.log.lh.length + s.logging < NBUF

/-- The steps that the waiting process needs. -/
def Helps (area : LogArea) (p : Fin NPROC) (s : State) (a : Act) : Prop :=
  OfOther p a ∧ Orderly area s a

theorem Waits.goto {c : Pc} (h : Waits s p) (hq : q ≠ p) : Waits (s.goto q c) p := by
  unfold Waits
  rw [State.goto_of_ne (Ne.symm hq)]
  exact h

theorem Waits.wakeup (h : Waits s p) : Waits s.wakeup p := by
  unfold Waits at *
  simp only [State.wakeup]
  rcases h with h | h
  · simp [h]
  · simp [h]

theorem Waits.step (h : Waits s p) (ha : OfOther p a) (hs : step area s a = some s') :
    Waits s' p := by
  obtain ⟨q, hq, rfl | ⟨b, rfl⟩ | rfl | rfl⟩ := ha
  · cases step_cases hs with
    | append => exact Waits.goto (s := (s.withDrive _).withLog _) h hq
    | overrun => exact h
  · cases step_cases hs with
    | brelse => exact h
  · cases step_cases hs with
    | endOp => exact Waits.goto (s := s.withLog _) h hq
    | leave => exact Waits.goto (Waits.wakeup (s := s.withLog _) h) hq
    | endPanic => exact h
  · cases step_cases hs with
    | nothing | begin | written => exact Waits.goto h hq
    | writeLog | writeHead | install | eraseHead => exact Waits.goto (s := s.withDrive _) h hq
    | installed => exact Waits.goto (s := s.withLog _) h hq
    | endCommit => exact Waits.goto (Waits.wakeup (s := s.withLog _) h) hq
    | commitPanic => exact h

theorem Waits.ne (h : Waits s p) (hq : ¬ (s.pc q).Idle) : q ≠ p := by
  rintro rfl
  rcases h with h | h
  · exact hq (h ▸ trivial)
  · exact hq (h ▸ trivial)

/-- The steps that help keep the machine a store, and the process waits on. -/
structure Awaits (area : LogArea) (p : Fin NPROC) (s : State) : Prop where
  refines : ∃ t : Contents, Refines area s t
  waits : Waits s p

theorem Awaits.step (h : Awaits area p s) (ha : Helps area p s a)
    (hs : FsLog.step area s a = some s') : Awaits area p s' := by
  obtain ⟨t, href⟩ := h.refines
  obtain ⟨_, t', _, _, href'⟩ := href.step ha.2 hs
  exact ⟨⟨t', href'⟩, h.waits.step ha.1 hs⟩

theorem Awaits.reach (h : Awaits area p s) (hr : Reachable (FsLog.step area) (Helps area p) s s') :
    Awaits area p s' :=
  hr.invariant h fun _ _ _ ht hok hs => ht.step hok hs

/-! ## Calls of `log_write` come to their end -/

theorem logging_goto (s : State) (p : Fin NPROC) (c : Pc) :
    (s.goto p c).logging + (if (s.pc p).logs.isSome then 1 else 0) =
      s.logging + if c.logs.isSome then 1 else 0 := by
  have htally := tally_of_eq_off (f := fun q => if (s.pc q).logs.isSome then 1 else 0)
    (g := fun q => if ((s.goto p c).pc q).logs.isSome then 1 else 0) p fun q hq => by
      rw [State.goto_of_ne hq]
  simp only [State.goto_self] at htally
  exact htally

theorem not_pending_of_logging (h : s.logging = 0) (b : BlockNo) : ¬ s.Pending b := by
  rintro ⟨p, hp⟩
  have hzero := tally_eq_zero_iff.mp h p
  simp [hp] at hzero

theorem exists_pending (h : s.logging ≠ 0) : ∃ q logged b, s.pc q = .logging logged b := by
  by_contra hnone
  refine h (tally_eq_zero_iff.mpr fun q => ?_)
  cases hlogs : (s.pc q).logs with
  | none => rfl
  | some b =>
      obtain ⟨logged, hq⟩ := Pc.logs_eq_some hlogs
      exact absurd ⟨q, logged, b, hq⟩ hnone

theorem exists_none_pending (h : Awaits area p s) (hup : s.phase = .up) (hspare : Spare area s) :
    ∃ s', Reachable (step area) (Helps area p) s s' ∧ s'.phase = .up ∧
      s'.log.lh.length < NBUF ∧ ∀ b, ¬ s'.Pending b := by
  generalize hn : s.logging = n
  induction n generalizing s with
  | zero =>
      refine ⟨s, .refl, hup, ?_, not_pending_of_logging hn⟩
      have := hspare.buffers
      omega
  | succ n ih =>
      obtain ⟨q, logged, b, hq⟩ := exists_pending (s := s) (by omega)
      have hlog : LOGSIZE = NBUF := rfl
      have hroom := hspare.room
      have hbuf := hspare.buffers
      have hs := step_append area hup hq (by omega) (.inr (by omega))
      have hok : Helps area p s (.append q) := by
        refine ⟨⟨q, h.waits.ne (by rw [hq]; exact id), .inl rfl⟩, fun logged' b' _ => ?_⟩
        exact .inr ⟨by omega, by omega⟩
      have hlen := Log.length_record_le b s.log.lh
      generalize hs₁ : ((s.withDrive (s.drive.pin b)).withLog
        { s.log with lh := Log.record b s.log.lh }).goto q (.inOp (b :: logged)) = s₁ at hs
      have hlh : s₁.log.lh = Log.record b s.log.lh := by
        subst hs₁
        rfl
      have hlogging : s₁.logging = n := by
        have hgoto := logging_goto ((s.withDrive (s.drive.pin b)).withLog
          { s.log with lh := Log.record b s.log.lh }) q (.inOp (b :: logged))
        rw [hs₁] at hgoto
        change s₁.logging + (if (s.pc q).logs.isSome then 1 else 0) = s.logging + 0 at hgoto
        simp only [hq, Pc.logs, Option.isSome_some, if_true] at hgoto
        omega
      have hup₁ : s₁.phase = .up := by
        subst hs₁
        exact hup
      have hspare₁ : Spare area s₁ := by
        refine ⟨?_, ?_⟩
        · rw [hlh]
          omega
        · rw [hlh]
          omega
      obtain ⟨s', hr, hup', hlt, hnone⟩ := ih (h.step hok hs) hup₁ hspare₁ hlogging
      exact ⟨s', (Reachable.refl.tail hok hs).trans hr, hup', hlt, hnone⟩

/-! ## Buffers are released -/

theorem exists_none_held (h : Awaits area p s) (hup : s.phase = .up) (hnone : ∀ b, ¬ s.Pending b) :
    ∃ s', Reachable (step area) (Helps area p) s s' ∧ s'.phase = .up ∧ s'.log = s.log ∧
      s'.pc = s.pc ∧ s'.held = [] := by
  generalize hn : s.held.length = n
  induction n generalizing s with
  | zero => exact ⟨s, .refl, hup, rfl, rfl, List.length_eq_zero_iff.mp hn⟩
  | succ n ih =>
      obtain ⟨⟨q, b⟩, hmem⟩ := List.exists_mem_of_length_eq_add_one hn
      obtain ⟨t, href⟩ := h.refines
      have hplace := href.holders.place _ hmem
      have huses : (s.pc q).UsesBuffers := by
        cases hq : s.pc q with
        | outside | inOp => trivial
        | logging logged c => exact absurd ⟨q, by rw [hq]; rfl⟩ (hnone c)
        | _ =>
            rw [hq] at hplace
            simp [Pc.Active] at hplace
      have hne : q ≠ p := by
        rintro rfl
        rcases h.waits with hq | hq
        · rw [hq] at huses
          exact huses
        · rw [hq] at huses
          exact huses
      have hs := step_brelse area hup huses hmem
      have hok : Helps area p s (.brelse q b) := ⟨⟨q, hne, .inr (.inl ⟨b, rfl⟩)⟩, trivial⟩
      obtain ⟨s', hr, hup', hlog, hpc, hheld⟩ := ih (h.step hok hs) hup hnone (by
        change (s.held.erase (q, b)).length = n
        rw [List.length_erase_of_mem hmem, hn]
        rfl)
      exact ⟨s', (Reachable.refl.tail hok hs).trans hr, hup', hlog, hpc, hheld⟩

/-! ## The commit -/

/-- A bound for the steps to the end of the commit. -/
def Pc.rank (n : ℕ) : Pc → ℕ
  | .commit => 2 * n + 6
  | .writeLog tail => (n - tail) + n + 5
  | .writeHead => n + 4
  | .installTrans tail => (n - tail) + 3
  | .eraseHead => 2
  | .endCommit => 1
  | _ => 0

/-- Only blocks of the transaction are dirty. -/
theorem Refines.mem_of_dirty (h : Refines area s t) (hup : s.phase = .up)
    (hq : (s.pc q).Committing) (hb : s.drive.dirty b = true) : b ∈ s.log.lh := by
  have hplace := (h.running hup).place q
  cases hpc : s.pc q with
  | outside | beginOp | asleep | inOp | logging =>
      rw [hpc] at hq
      exact absurd hq id
  | commit =>
      rw [hpc] at hplace
      exact (hplace.dirty b).mp hb
  | writeLog tail =>
      rw [hpc] at hplace
      exact (hplace.dirty b).mp hb
  | writeHead =>
      rw [hpc] at hplace
      exact (hplace.dirty b).mp hb
  | installTrans tail =>
      rw [hpc] at hplace
      exact List.mem_of_mem_drop (hplace.2.dirty b hb)
  | eraseHead =>
      rw [hpc] at hplace
      rw [hplace.2.2.dirty b] at hb
      cases hb
  | endCommit =>
      rw [hpc] at hplace
      exact (hplace.2.dirty b).mp hb

/-- A process is in the commit, nobody holds a buffer, and the cache has room for one block more
than the transaction. -/
structure Commits (q : Fin NPROC) (s : State) : Prop where
  up : s.phase = .up
  committing : (s.pc q).Committing
  held : s.held = []
  length_lt : s.log.lh.length < NBUF

theorem Commits.locked (h : Commits q s) : s.locked = [] := by
  rw [State.locked, h.held, List.map_nil]

/-- No pass of the loops runs out of buffers. -/
theorem Commits.passes (h : Commits q s) (href : Refines area s t) {tail : ℕ}
    (hb : s.log.lh[tail]? = some b) :
    [area.block tail, b].Nodup ∧ (∃ d, area.writeLog s.locked tail b s.drive = some d) ∧
      ∃ d, area.installTrans s.locked tail b s.drive = some d := by
  have hfits := (href.running h.up).fits
  have hclean := href.clean h.up h.committing
  have hmem := List.mem_of_getElem? hb
  have hdirty : ∀ c, s.drive.dirty c = true → c ∈ b :: s.log.lh.erase b := fun c hc =>
    (List.perm_cons_erase hmem).mem_iff.mp (href.mem_of_dirty h.up h.committing hc)
  have hlen : (s.log.lh.erase b).length + 1 < NBUF := by
    have := h.length_lt
    have := List.length_pos_of_mem hmem
    rw [List.length_erase_of_mem hmem]
    omega
  rw [h.locked]
  exact ⟨by simpa using hfits.ne_of_holds hb (hfits.holds_block hb),
    Option.isSome_iff_exists.mp (LogArea.writeLog_isSome _ hclean hdirty hlen),
    Option.isSome_iff_exists.mp (LogArea.installTrans_isSome _ hclean hdirty hlen)⟩

theorem Commits.head (h : Commits q s) (href : Refines area s t) :
    ∃ d, area.writeHead s.locked s.log.lh s.drive = some d := by
  rw [h.locked]
  exact Option.isSome_iff_exists.mp (LogArea.writeHead_isSome _
    (fun c hc => href.mem_of_dirty h.up h.committing hc) h.length_lt)

/-- The process goes on to a place that is closer to the end of the commit. -/
theorem Commits.goto (h : Commits q s) {c : Pc} (hc : c.Committing) (d : Drive) (lh : List BlockNo)
    (hlen : lh.length ≤ s.log.lh.length)
    (hrank : c.rank lh.length < (s.pc q).rank s.log.lh.length) :
    Commits q (((s.withDrive d).withLog { s.log with lh := lh }).goto q c) ∧
      ((((s.withDrive d).withLog { s.log with lh := lh }).goto q c).pc q).rank lh.length <
        (s.pc q).rank s.log.lh.length := by
  have hplace : (((s.withDrive d).withLog { s.log with lh := lh }).goto q c).pc q = c :=
    State.goto_self ..
  refine ⟨⟨h.up, ?_, h.held, Nat.lt_of_le_of_lt hlen h.length_lt⟩, ?_⟩
  · rw [hplace]
    exact hc
  · rw [hplace]
    exact hrank

/-- A step of the commit brings it closer to its end or is the last one. -/
theorem Commits.exists_step (h : Commits q s) (href : Refines area s t) :
    ∃ s', step area s (.commit q) = some s' ∧
      (Commits q s' ∧ (s'.pc q).rank s'.log.lh.length < (s.pc q).rank s.log.lh.length ∨
        Quiet s') := by
  have hup := h.up
  have hq := h.committing
  have hout := href.control.idle (href.control.committing_of hq)
  have hstep : step area s (.commit q) = s.commitStep area q := by
    change (if s.phase = .up then _ else none) = _
    rw [if_pos hup]
    rfl
  rw [hstep]
  cases hpc : s.pc q with
  | outside | beginOp | asleep | inOp | logging =>
      rw [hpc] at hq
      exact absurd hq id
  | commit =>
      simp only [State.commitStep, hpc]
      refine ⟨_, rfl, .inl (hpc ▸ h.goto ?_ s.drive s.log.lh (Nat.le_refl _) ?_)⟩
      · split <;> trivial
      · rw [hpc]
        split <;> simp only [Pc.rank] <;> omega
  | writeLog tail =>
      simp only [State.commitStep, hpc]
      cases hb : s.log.lh[tail]? with
      | some b =>
          obtain ⟨hnodup, ⟨d, hd⟩, -⟩ := h.passes href hb
          have hlt := (List.getElem?_eq_some_iff.mp hb).1
          refine ⟨_, pass_eq_some h.held hnodup hd,
            .inl (hpc ▸ h.goto (by trivial) d s.log.lh (Nat.le_refl _) ?_)⟩
          rw [hpc]
          simp only [Pc.rank]
          omega
      | none =>
          refine ⟨_, rfl, .inl (hpc ▸ h.goto (by trivial) s.drive s.log.lh (Nat.le_refl _) ?_)⟩
          rw [hpc]
          simp only [Pc.rank]
          omega
  | writeHead =>
      simp only [State.commitStep, hpc]
      obtain ⟨d, hd⟩ := h.head href
      refine ⟨_, pass_eq_some h.held (List.nodup_singleton _) hd,
        .inl (hpc ▸ h.goto (by trivial) d s.log.lh (Nat.le_refl _) ?_)⟩
      rw [hpc]
      simp only [Pc.rank]
      omega
  | installTrans tail =>
      simp only [State.commitStep, hpc]
      cases hb : s.log.lh[tail]? with
      | some b =>
          obtain ⟨hnodup, -, ⟨d, hd⟩⟩ := h.passes href hb
          have hlt := (List.getElem?_eq_some_iff.mp hb).1
          refine ⟨_, pass_eq_some h.held hnodup hd,
            .inl (hpc ▸ h.goto (by trivial) d s.log.lh (Nat.le_refl _) ?_)⟩
          rw [hpc]
          simp only [Pc.rank]
          omega
      | none =>
          refine ⟨_, rfl, .inl (hpc ▸ h.goto (by trivial) s.drive [] (Nat.zero_le _) ?_)⟩
          rw [hpc]
          simp only [Pc.rank]
          omega
  | eraseHead =>
      simp only [State.commitStep, hpc]
      obtain ⟨d, hd⟩ := h.head href
      refine ⟨_, pass_eq_some h.held (List.nodup_singleton _) hd,
        .inl (hpc ▸ h.goto (by trivial) d s.log.lh (Nat.le_refl _) ?_)⟩
      rw [hpc]
      simp only [Pc.rank]
      omega
  | endCommit =>
      simp only [State.commitStep, hpc]
      exact ⟨_, rfl, .inr ⟨hup, hout, rfl⟩⟩

theorem Commits.exists_quiet {n : ℕ} (h : Commits q s) (hawaits : Awaits area p s)
    (hn : (s.pc q).rank s.log.lh.length ≤ n) :
    ∃ s', Reachable (step area) (Helps area p) s s' ∧ Quiet s' := by
  induction n generalizing s with
  | zero =>
      have hq := h.committing
      cases hpc : s.pc q with
      | outside | beginOp | asleep | inOp | logging =>
          rw [hpc] at hq
          exact absurd hq id
      | _ =>
          rw [hpc] at hn
          simp only [Pc.rank] at hn
          omega
  | succ n ih =>
      obtain ⟨t, href⟩ := hawaits.refines
      have hne : q ≠ p := hawaits.waits.ne fun hidle => hidle.not_committing h.committing
      have hok : Helps area p s (.commit q) := ⟨⟨q, hne, .inr (.inr (.inr rfl))⟩, trivial⟩
      obtain ⟨s₁, hs, ⟨h₁, hlt⟩ | hquiet⟩ := h.exists_step href
      · obtain ⟨s', hr, hquiet⟩ := ih h₁ (hawaits.step hok hs) (by omega)
        exact ⟨s', (Reachable.refl.tail hok hs).trans hr, hquiet⟩
      · exact ⟨s₁, .tail .refl hok hs, hquiet⟩

/-! ## The operations -/

theorem exists_active (hctl : Control s) (h : s.log.outstanding ≠ 0) :
    ∃ q, (s.pc q).Active := by
  by_contra hnone
  apply h
  rw [hctl.outstanding]
  have hops : s.ops = 0 := tally_eq_zero_iff.mpr fun q => if_neg fun hq => hnone ⟨q, hq⟩
  rw [hops]
  rfl

/-- Nobody holds a buffer or is in `log_write`, so the operations can end. -/
structure Ready (s : State) : Prop where
  up : s.phase = .up
  held : s.held = []
  pending : ∀ b, ¬ s.Pending b
  length_lt : s.log.lh.length < NBUF

theorem Ready.leave (h : Ready s) (hq : (s.pc q).Active) (log : Log) (hlh : log.lh = s.log.lh) :
    Ready ((s.withLog log).wakeup.goto q .outside) where
  up := h.up
  held := h.held
  pending b hb := by
    have hlogs : (s.pc q).logs = none := by
      cases hpc : (s.pc q).logs with
      | none => rfl
      | some c => exact absurd ⟨q, hpc⟩ (h.pending c)
    have hwake : ((s.withLog log).wakeup.pc q).logs = none := by
      rw [State.wakeup_of_ne]
      · exact hlogs
      · intro hasleep
        change s.pc q = _ at hasleep
        rw [hasleep] at hq
        exact hq
    rw [pending_goto hwake rfl, pending_wakeup] at hb
    exact h.pending b hb
  length_lt := by
    change log.lh.length < NBUF
    rw [hlh]
    exact h.length_lt

/-- One operation after the other ends, and the last one commits. -/
theorem Ready.exists_quiet {n : ℕ} (h : Ready s) (hawaits : Awaits area p s)
    (hn : s.log.outstanding = n) :
    ∃ s', Reachable (step area) (Helps area p) s s' ∧ Quiet s' := by
  obtain ⟨t, href⟩ := hawaits.refines
  by_cases hfree : s.log.committing = true
  · obtain ⟨q, hq⟩ := href.control.committer.mp hfree
    have hcommits : Commits q s := ⟨h.up, hq, h.held, h.length_lt⟩
    exact hcommits.exists_quiet hawaits (Nat.le_refl _)
  rw [Bool.not_eq_true] at hfree
  induction n generalizing s t with
  | zero => exact ⟨s, .refl, h.up, hn, hfree⟩
  | succ n ih =>
      obtain ⟨q, hq⟩ := exists_active href.control (by omega)
      obtain ⟨logged, hpc⟩ : ∃ logged, s.pc q = .inOp logged := by
        cases hpc : s.pc q with
        | inOp logged => exact ⟨logged, rfl⟩
        | logging logged b => exact absurd ⟨q, by rw [hpc]; rfl⟩ (h.pending b)
        | _ =>
            rw [hpc] at hq
            exact absurd hq id
      have hne : q ≠ p := hawaits.waits.ne fun hidle => hidle.not_active hq
      have hok : Helps area p s (.endOp q) := ⟨⟨q, hne, .inr (.inr (.inl rfl))⟩, trivial⟩
      have hnone : s.HoldsNone q := by simp [State.HoldsNone, h.held]
      by_cases hone : s.log.outstanding = 1
      · have hs := step_endOp area h.up hpc hnone hfree hone
        have hcommits : Commits q ((s.withLog ⟨0, true, s.log.lh⟩).goto q .commit) := by
          refine ⟨h.up, ?_, h.held, h.length_lt⟩
          rw [State.goto_self]
          trivial
        obtain ⟨s', hr, hquiet⟩ := hcommits.exists_quiet (hawaits.step hok hs) (Nat.le_refl _)
        exact ⟨s', (Reachable.refl.tail hok hs).trans hr, hquiet⟩
      · have hs := step_leave area h.up hpc hnone hfree hone
        have hawaits₁ := hawaits.step hok hs
        obtain ⟨t₁, href₁⟩ := hawaits₁.refines
        have hready := h.leave hq { s.log with outstanding := s.log.outstanding - 1 } rfl
        have hn₁ : s.log.outstanding - 1 = n := by omega
        obtain ⟨s', hr, hquiet⟩ := ih hready hawaits₁ hn₁ t₁ href₁ hfree
        exact ⟨s', (Reachable.refl.tail hok hs).trans hr, hquiet⟩

theorem exists_quiet_run (h : Awaits area p s) (hup : s.phase = .up) (hspare : Spare area s) :
    ∃ s', Reachable (step area) (Helps area p) s s' ∧ Quiet s' := by
  obtain ⟨s₁, hr₁, hup₁, hlt, hnone⟩ := exists_none_pending h hup hspare
  obtain ⟨s₂, hr₂, hup₂, hlog, hpc, hheld⟩ := exists_none_held (h.reach hr₁) hup₁ hnone
  have hready : Ready s₂ := by
    refine ⟨hup₂, hheld, fun b ⟨q, hq⟩ => hnone b ⟨q, ?_⟩, ?_⟩
    · rw [hpc] at hq
      exact hq
    · rw [hlog]
      exact hlt
  have hawaits := (h.reach hr₁).reach hr₂
  obtain ⟨t, href⟩ := hawaits.refines
  obtain ⟨s', hr, hquiet⟩ := hready.exists_quiet hawaits href.control.outstanding
  exact ⟨s', (hr₁.trans hr₂).trans hr, hquiet⟩

/-- Whoever sleeps in `begin_op` would sleep again if it were woken; and as long as there is room
for the blocks that are being logged, the other processes need only finish their calls of
`log_write`, release their buffers, end their operations and commit for it to be awake and able to
enter. -/
theorem begin_op_completes {disk : BlockNo → Block}
    (hclean : getHead (disk area.start) = some [])
    (hr : Reachable (step area) (Orderly area) (boot disk) s) (hup : s.phase = .up)
    (hp : Waits s p) :
    (s.pc p = .asleep → s.log.beginOp = none) ∧
      (Spare area s → ∃ as s', run (step area) s as = some s' ∧ (∀ a ∈ as, OfOther p a) ∧
        s'.pc p = .beginOp ∧ (step area s' (.enter p)).isSome) := by
  refine ⟨(Reachable.control hr).asleep p, fun hspare => ?_⟩
  obtain ⟨bs, hrun, hmeets⟩ := reachable_iff_run.mp hr
  have hawaits : Awaits area p s := ⟨run_refines_store hclean hmeets hrun, hp⟩
  obtain ⟨s', hr', hquiet⟩ := exists_quiet_run hawaits hup hspare
  obtain ⟨⟨t, href⟩, hwaits⟩ := hawaits.reach hr'
  obtain ⟨as, hrun', hmeets'⟩ := reachable_iff_run.mp hr'
  have hlh := (href.running hquiet.up).drained hquiet.committing hquiet.outstanding
  have hbegin : s'.log.beginOp = some { s'.log with outstanding := s'.log.outstanding + 1 } := by
    refine Log.beginOp_eq_some.mpr ⟨hquiet.committing, ?_, rfl⟩
    rw [hlh, hquiet.outstanding]
    decide
  have hpc : s'.pc p = .beginOp := by
    refine hwaits.resolve_right fun hasleep => ?_
    rw [href.control.asleep p hasleep] at hbegin
    cases hbegin
  refine ⟨as, s', hrun', fun a ha => (hmeets'.of_mem hrun' a ha), hpc, ?_⟩
  rw [step_enter area hquiet.up hpc hbegin]
  rfl

/-- Three operations are active, one of them in `log_write`, and a fourth one sleeps. -/
theorem begin_op_completes_fourth : ∃ s s' as,
    run (step .mkfs) (boot fun _ _ => 0)
      [.recover, .recover, .recover, .call 0, .enter 0, .call 1, .enter 1, .call 2, .enter 2,
        .call 3, .sleep 3, .bread 1 40, .write 1 40 fun _ => 7] = some s ∧
    s.pc 3 = .asleep ∧ s.log.beginOp = none ∧
    run (step .mkfs) s as = some s' ∧ (∀ a ∈ as, OfOther 3 a) ∧ s'.pc 3 = .beginOp ∧
    (step .mkfs s' (.enter 3)).isSome := by
  obtain ⟨s, hrun, hup, hasleep, hspare⟩ : ∃ s, run (step .mkfs) (boot fun _ _ => 0)
      [.recover, .recover, .recover, .call 0, .enter 0, .call 1, .enter 1, .call 2, .enter 2,
        .call 3, .sleep 3, .bread 1 40, .write 1 40 fun _ => 7] = some s ∧ s.phase = .up ∧
        s.pc 3 = .asleep ∧ Spare .mkfs s :=
    ⟨_, rfl, rfl, rfl, by decide, by decide⟩
  have hb : ¬ LogArea.mkfs.Holds 40 := not_holds_mkfs (by decide)
  obtain ⟨hnone, hrest⟩ := begin_op_completes rfl
    (reachable_iff_run.mpr ⟨_, hrun, meets_of_mem (by simp [Orderly, hb]) _⟩) hup (.inr hasleep)
  obtain ⟨as, s', hrun', hothers, hpc, henter⟩ := hrest hspare
  exact ⟨s, s', as, hrun, hasleep, hnone hasleep, hrun', hothers, hpc, henter⟩

end OsSolutions.FsLog
