import OsSolutions.Transition.Run
import OsSolutions.Transition.Tally
import OsSolutions.Verification.Log.Steps

/-! # Operations, the committing process and the sleepers

`outstanding` counts the operations, the one process that commits does so alone, whoever sleeps
in `begin_op` still has a reason to, and buffers are held outside of the commit only. -/

namespace OsSolutions.FsLog

open Transition

variable {area : LogArea} {s s' : State} {a : Act} {p q : Fin NPROC}

namespace Pc

/-- Between `begin_op` and `end_op`. -/
def Active : Pc → Prop
  | .inOp _ | .logging _ _ => True
  | _ => False

/-- In `commit`, or in the last section of `end_op`. -/
def Committing : Pc → Prop
  | .outside | .beginOp | .asleep | .inOp _ | .logging _ _ => False
  | _ => True

/-- Neither in an operation nor in `end_op`. -/
def Idle : Pc → Prop
  | .outside | .beginOp | .asleep => True
  | _ => False

instance : DecidablePred Active
  | .inOp _ | .logging _ _ => isTrue trivial
  | .outside | .beginOp | .asleep | .commit | .writeLog _ | .writeHead | .installTrans _
  | .eraseHead | .endCommit => isFalse id

end Pc

/-- `recover_from_log` runs. -/
def Phase.Down : Phase → Prop
  | .readHead | .installTrans _ | .eraseHead => True
  | _ => False

/-- The number of operations between `begin_op` and `end_op`. -/
def State.ops (s : State) : ℕ := tally fun p => if (s.pc p).Active then 1 else 0

theorem ops_pos (h : (s.pc p).Active) : 0 < s.ops := by
  have := le_tally (fun p => if (s.pc p).Active then 1 else 0) p
  simp only [h, if_true] at this
  exact this

/-- What holds between the places of the processes and the log. -/
structure Control (s : State) : Prop where
  outstanding : s.log.outstanding = s.ops
  alone : ∀ p q, (s.pc p).Committing → (s.pc q).Committing → p = q
  committer : s.log.committing = true ↔ ∃ p, (s.pc p).Committing
  idle : s.log.committing = true → s.log.outstanding = 0
  down : s.phase.Down → ∀ p, s.pc p = .outside
  asleep : ∀ p, s.pc p = .asleep → s.log.beginOp = none

/-- What holds between the places of the processes and the buffers. -/
structure Holders (s : State) : Prop where
  place : ∀ x ∈ s.held, s.pc x.1 = .outside ∨ (s.pc x.1).Active
  logging : ∀ p logged b, s.pc p = .logging logged b → (p, b) ∈ s.held
  down : s.phase.Down → s.held = []

/-! ## Fields after a step -/

namespace State

@[simp] theorem goto_self (s : State) (p : Fin NPROC) (c : Pc) : (s.goto p c).pc p = c := by
  simp [goto]

theorem goto_of_ne {c : Pc} (h : q ≠ p) : (s.goto p c).pc q = s.pc q := by
  simp [goto, h]

theorem wakeup_asleep (s : State) (p : Fin NPROC) : s.wakeup.pc p ≠ .asleep := by
  simp only [wakeup]
  split
  · simp
  · assumption

theorem wakeup_of_ne (h : s.pc p ≠ .asleep) : s.wakeup.pc p = s.pc p := if_neg h

theorem wakeup_active : (s.wakeup.pc p).Active ↔ (s.pc p).Active := by
  simp only [wakeup]
  split
  · rename_i h
    simp [Pc.Active, h]
  · rfl

theorem wakeup_committing : (s.wakeup.pc p).Committing ↔ (s.pc p).Committing := by
  simp only [wakeup]
  split
  · rename_i h
    simp [Pc.Committing, h]
  · rfl

end State

theorem Pc.Committing.not_active {c : Pc} (h : c.Committing) : ¬ c.Active := by
  intro ha
  cases c with
  | inOp | logging => exact h
  | _ => exact ha

theorem Pc.Idle.not_active {c : Pc} (h : c.Idle) : ¬ c.Active := by
  intro ha
  cases c with
  | inOp | logging => exact h
  | _ => exact ha

theorem Pc.Active.not_committing {c : Pc} (h : c.Active) : ¬ c.Committing :=
  fun hc => hc.not_active h

theorem Pc.Idle.not_committing {c : Pc} (h : c.Idle) : ¬ c.Committing := by
  intro hc
  cases c with
  | outside | beginOp | asleep => exact hc
  | _ => exact h

/-- Only the process that has gone on may have entered or left an operation. -/
theorem ops_goto (s : State) (p : Fin NPROC) (c : Pc) :
    (s.goto p c).ops + (if (s.pc p).Active then 1 else 0) =
      s.ops + if c.Active then 1 else 0 := by
  have htally := tally_of_eq_off (f := fun q => if (s.pc q).Active then 1 else 0)
    (g := fun q => if ((s.goto p c).pc q).Active then 1 else 0) p fun q hq => by
      rw [State.goto_of_ne hq]
  simp only [State.goto_self] at htally
  exact htally

theorem ops_congr (h : ∀ p, (s'.pc p).Active ↔ (s.pc p).Active) : s'.ops = s.ops :=
  tally_congr fun p => by simp only [h p]

theorem not_down (hup : s.phase = .up) : ¬ s.phase.Down := by
  rw [hup]
  exact id

/-! ## The steps keep the invariant -/

namespace Control

theorem boot (disk : BlockNo → Block) : Control (boot disk) where
  outstanding := by
    have : (FsLog.boot disk).ops = 0 :=
      tally_eq_zero_iff.mpr fun p => by simp [FsLog.boot, Pc.Active]
    rw [this]
    rfl
  alone p q hp := by simp [FsLog.boot, Pc.Committing] at hp
  committer := by simp [FsLog.boot, Log.zero, Pc.Committing]
  idle h := by simp [FsLog.boot, Log.zero] at h
  down _ _ := rfl
  asleep p h := by simp [FsLog.boot] at h

/-- While the log commits no operation is active. -/
theorem not_active (h : Control s) (hc : s.log.committing = true) (p : Fin NPROC) :
    ¬ (s.pc p).Active := by
  intro hp
  have hpos := ops_pos hp
  have hout := h.outstanding
  rw [h.idle hc] at hout
  omega

theorem committing_of (h : Control s) (hp : (s.pc p).Committing) : s.log.committing = true :=
  h.committer.mpr ⟨p, hp⟩

theorem one_le (h : Control s) (hp : (s.pc p).Active) : 1 ≤ s.log.outstanding := by
  have hpos := ops_pos hp
  rw [h.outstanding]
  omega

/-- Nothing that the invariant speaks of has changed, or the machine has stopped. -/
theorem congr (h : Control s) (hpc : s'.pc = s.pc) (hlog : s'.log = s.log)
    (hph : s'.phase = s.phase ∨ ¬ s'.phase.Down) : Control s' where
  outstanding := by
    rw [hlog, h.outstanding]
    simp only [State.ops, hpc]
  alone := by rw [hpc]; exact h.alone
  committer := by rw [hpc, hlog]; exact h.committer
  idle := by rw [hlog]; exact h.idle
  down hdown := by
    rcases hph with heq | hup
    · rw [heq] at hdown
      rw [hpc]
      exact h.down hdown
    · exact absurd hdown hup
  asleep := by rw [hpc, hlog]; exact h.asleep

/-- The process that commits has gone on. -/
theorem work (h : Control s) (hup : s.phase = .up) (hp : (s.pc p).Committing) {c : Pc}
    (hc : c.Committing) (d : Drive) (lh : List BlockNo) :
    Control (((s.withDrive d).withLog { s.log with lh := lh }).goto p c) := by
  have hcommitting := h.committing_of hp
  have hq : ∀ q ≠ p, (((s.withDrive d).withLog { s.log with lh := lh }).goto p c).pc q = s.pc q :=
    fun q hne => State.goto_of_ne hne
  constructor
  · have hops : (((s.withDrive d).withLog { s.log with lh := lh }).goto p c).ops +
        (if (s.pc p).Active then 1 else 0) = s.ops + _ := ops_goto _ p c
    rw [if_neg hp.not_active, if_neg hc.not_active, Nat.add_zero, Nat.add_zero] at hops
    rw [hops]
    exact h.outstanding
  · intro q r hqc hrc
    have honly : ∀ q,
        ((((s.withDrive d).withLog { s.log with lh := lh }).goto p c).pc q).Committing → q = p := by
      intro q hqc
      by_contra hne
      rw [hq q hne] at hqc
      exact hne (h.alone q p hqc hp)
    rw [honly q hqc, honly r hrc]
  · exact ⟨fun _ => ⟨p, by simpa using hc⟩, fun _ => hcommitting⟩
  · exact h.idle
  · exact fun hdown => (not_down hup hdown).elim
  · intro q hasleep
    exact Log.beginOp_eq_none.mpr (.inl hcommitting)

/-- A process outside of the operations and of `commit` has gone on to such a place. -/
theorem stroll (h : Control s) (hup : s.phase = .up) {c : Pc} (hp : (s.pc p).Idle)
    (hc : c.Idle) (hsleep : c = .asleep → s.log.beginOp = none) : Control (s.goto p c) := by
  have hq : ∀ q ≠ p, (s.goto p c).pc q = s.pc q := fun q hne => State.goto_of_ne hne
  have hcommit : ∀ q, ((s.goto p c).pc q).Committing ↔ (s.pc q).Committing := by
    intro q
    by_cases hne : q = p
    · subst hne
      simp [hp.not_committing, hc.not_committing]
    · rw [hq q hne]
  constructor
  · have hops := ops_goto s p c
    rw [if_neg hp.not_active, if_neg hc.not_active, Nat.add_zero, Nat.add_zero] at hops
    rw [hops]
    exact h.outstanding
  · intro q r hqc hrc
    exact h.alone q r ((hcommit q).mp hqc) ((hcommit r).mp hrc)
  · simp only [hcommit]
    exact h.committer
  · exact h.idle
  · exact fun hdown => (not_down hup hdown).elim
  · intro q hasleep
    by_cases hne : q = p
    · subst hne
      exact hsleep (by simpa using hasleep)
    · rw [hq q hne] at hasleep
      exact h.asleep q hasleep

/-- A process has entered an operation or gone on in it, and the log is fuller than before. -/
theorem operate (h : Control s) (hup : s.phase = .up) (hfree : s.log.committing = false)
    (hp : ¬ (s.pc p).Committing) {c : Pc} (hc : c.Active) {log : Log} (d : Drive)
    (hcommit : log.committing = false)
    (hout : log.outstanding + (if (s.pc p).Active then 1 else 0) = s.log.outstanding + 1)
    (hfull : s.log.beginOp = none → log.beginOp = none) :
    Control (((s.withDrive d).withLog log).goto p c) := by
  have hq : ∀ q ≠ p, (((s.withDrive d).withLog log).goto p c).pc q = s.pc q :=
    fun q hne => State.goto_of_ne hne
  have hnone : ∀ q, ¬ ((((s.withDrive d).withLog log).goto p c).pc q).Committing := by
    intro q hqc
    by_cases hne : q = p
    · subst hne
      rw [State.goto_self] at hqc
      exact hc.not_committing hqc
    · rw [hq q hne] at hqc
      exact absurd (h.committing_of hqc) (by simp [hfree])
  constructor
  · have hops : (((s.withDrive d).withLog log).goto p c).ops +
        (if (s.pc p).Active then 1 else 0) = s.ops + _ := ops_goto _ p c
    rw [if_pos hc] at hops
    have := h.outstanding
    change log.outstanding = _
    split at hops
    · rename_i hactive
      rw [if_pos hactive] at hout
      omega
    · rename_i hactive
      rw [if_neg hactive] at hout
      omega
  · intro q r hqc
    exact absurd hqc (hnone q)
  · refine ⟨fun hc => ?_, fun ⟨q, hqc⟩ => absurd hqc (hnone q)⟩
    change log.committing = true at hc
    rw [hcommit] at hc
    cases hc
  · intro hc
    change log.committing = true at hc
    rw [hcommit] at hc
    cases hc
  · exact fun hdown => (not_down hup hdown).elim
  · intro q hasleep
    by_cases hne : q = p
    · subst hne
      rw [State.goto_self] at hasleep
      subst hasleep
      exact hc.elim
    · rw [hq q hne] at hasleep
      exact hfull (h.asleep q hasleep)

/-- The last operation has ended and its process commits. -/
theorem endOp (h : Control s) (hup : s.phase = .up) {logged : List BlockNo}
    (hp : s.pc p = .inOp logged) (hfree : s.log.committing = false)
    (hone : s.log.outstanding = 1) :
    Control ((s.withLog ⟨0, true, s.log.lh⟩).goto p .commit) := by
  have hq : ∀ q ≠ p, ((s.withLog ⟨0, true, s.log.lh⟩).goto p .commit).pc q = s.pc q :=
    fun q hne => State.goto_of_ne hne
  have honly : ∀ q, (((s.withLog ⟨0, true, s.log.lh⟩).goto p .commit).pc q).Committing →
      q = p := by
    intro q hqc
    by_contra hne
    rw [hq q hne] at hqc
    exact absurd (h.committing_of hqc) (by simp [hfree])
  constructor
  · have hops : ((s.withLog ⟨0, true, s.log.lh⟩).goto p .commit).ops +
        (if (s.pc p).Active then 1 else 0) = s.ops + _ := ops_goto _ p .commit
    rw [if_pos (hp ▸ trivial), if_neg (by simp [Pc.Active])] at hops
    have := h.outstanding
    change (0 : ℤ) = _
    omega
  · intro q r hqc hrc
    rw [honly q hqc, honly r hrc]
  · exact ⟨fun _ => ⟨p, by simp [Pc.Committing]⟩, fun _ => rfl⟩
  · exact fun _ => rfl
  · exact fun hdown => (not_down hup hdown).elim
  · intro q _
    exact Log.beginOp_eq_none.mpr (.inl rfl)

/-- A process has left an operation or the commit, and all sleepers are awake. -/
theorem leave (h : Control s) (hup : s.phase = .up) {log : Log} (hcommit : log.committing = false)
    (halone : ∀ q ≠ p, ¬ (s.pc q).Committing)
    (hout : log.outstanding + (if (s.pc p).Active then 1 else 0) = s.log.outstanding) :
    Control ((s.withLog log).wakeup.goto p .outside) := by
  have hnone : ∀ q, ¬ (((s.withLog log).wakeup.goto p .outside).pc q).Committing := by
    intro q hqc
    by_cases hne : q = p
    · subst hne
      simp [Pc.Committing] at hqc
    · rw [State.goto_of_ne hne, State.wakeup_committing] at hqc
      exact halone q hne hqc
  constructor
  · have hwake : (s.withLog log).wakeup.ops = s.ops := ops_congr fun q => State.wakeup_active
    have hops := ops_goto (s.withLog log).wakeup p .outside
    rw [hwake, if_neg (by simp [Pc.Active] : ¬ Pc.Active .outside)] at hops
    simp only [State.wakeup_active] at hops
    change (_ + if (s.pc p).Active then 1 else 0) = _ at hops
    have := h.outstanding
    change log.outstanding = _
    split at hops
    · rename_i hactive
      rw [if_pos hactive] at hout
      omega
    · rename_i hactive
      rw [if_neg hactive] at hout
      omega
  · intro q r hqc
    exact absurd hqc (hnone q)
  · refine ⟨fun hc => ?_, fun ⟨q, hqc⟩ => absurd hqc (hnone q)⟩
    change log.committing = true at hc
    rw [hcommit] at hc
    cases hc
  · intro hc
    change log.committing = true at hc
    rw [hcommit] at hc
    cases hc
  · exact fun hdown => (not_down hup hdown).elim
  · intro q hasleep
    by_cases hne : q = p
    · subst hne
      simp at hasleep
    · rw [State.goto_of_ne hne] at hasleep
      exact absurd hasleep (State.wakeup_asleep _ q)

/-- `recover_from_log` has gone on. -/
theorem recovering (h : Control s) (hpc : ∀ p, s.pc p = .outside) (d : Drive)
    (lh : List BlockNo) (ph : Phase) :
    Control (((s.withDrive d).withLog { s.log with lh := lh }).inPhase ph) where
  outstanding := h.outstanding
  alone := h.alone
  committer := h.committer
  idle := h.idle
  down _ := hpc
  asleep p hp := by
    change s.pc p = _ at hp
    rw [hpc p] at hp
    cases hp

/-- Whoever is in an operation keeps the others from committing. -/
theorem free (h : Control s) (hp : (s.pc p).Active) : s.log.committing = false := by
  by_contra hc
  exact h.not_active (by simpa using hc) p hp

theorem step (h : Control s) (hs : step area s a = some s') : Control s' := by
  cases step_cases hs with
  | bread | brelse => exact h.congr rfl rfl (.inl rfl)
  | call hup hp => exact h.stroll hup (hp ▸ trivial) trivial (by simp)
  | sleep hup hp hnone => exact h.stroll hup (hp ▸ trivial) trivial fun _ => hnone
  | enter hup hp hfree hroom =>
      refine h.operate hup hfree (by simp [hp, Pc.Committing]) (c := .inOp []) trivial s.drive hfree
        (by simp [hp, Pc.Active]) ?_
      intro hnone
      rw [Log.beginOp_eq_none] at hnone ⊢
      refine hnone.imp id fun hfull => ?_
      simp only
      omega
  | @write p b data logged hup hp =>
      have hactive : (s.pc p).Active := hp ▸ trivial
      exact h.operate hup (h.free hactive) hactive.not_committing (c := .logging logged b) trivial _
        (h.free hactive) (by rw [if_pos hactive]) id
  | @append p logged b hup hp =>
      have hactive : (s.pc p).Active := hp ▸ trivial
      refine h.operate hup (h.free hactive) hactive.not_committing (c := .inOp (b :: logged))
        trivial _ (h.free hactive) (by rw [if_pos hactive]) ?_
      intro hnone
      rw [Log.beginOp_eq_none] at hnone ⊢
      refine hnone.imp id fun hfull => ?_
      have hle := Log.length_le_record b s.log.lh
      simp only
      omega
  | breadPanic | writePanic | overrun | endPanic | commitPanic | recoverPanic =>
      exact h.congr rfl rfl (.inr id)
  | endOp hup hp _ hfree hone => exact h.endOp hup hp hfree hone
  | leave hup hp hfree _ =>
      refine h.leave hup hfree (fun q _ hq => ?_) (by simp [hp, Pc.Active])
      exact absurd (h.committing_of hq) (by simp [hfree])
  | nothing hup hp | begin hup hp | written hup hp =>
      exact h.work hup (hp ▸ trivial) (by trivial) s.drive s.log.lh
  | writeLog hup hp | writeHead hup hp | install hup hp | eraseHead hup hp =>
      exact h.work hup (hp ▸ trivial) (by trivial) _ s.log.lh
  | installed hup hp =>
      exact h.work hup (hp ▸ trivial) (by trivial) s.drive []
  | @endCommit p hup hp =>
      refine h.leave hup rfl (fun q hne hq => ?_) (by simp [hp, Pc.Active, Log.endCommit])
      exact hne (h.alone q p hq (hp ▸ trivial))
  | readHead hph | reinstall hph | reinstalled hph | erase hph =>
      exact h.recovering (h.down (hph ▸ trivial)) _ _ _
  | crash => exact .boot _

end Control

namespace Holders

theorem boot (disk : BlockNo → Block) : Holders (boot disk) :=
  ⟨by simp [FsLog.boot], by simp [FsLog.boot], fun _ => rfl⟩

/-- A process has gone on to a place where it may hold what it holds. -/
theorem goto (h : Holders s) (hup : s.phase = .up) {c : Pc}
    (hplace : (c = .outside ∨ c.Active) ∨ s.HoldsNone p)
    (hlogging : ∀ logged b, c = .logging logged b → (p, b) ∈ s.held) : Holders (s.goto p c) where
  place x hx := by
    by_cases hp : x.1 = p
    · rw [hp, State.goto_self]
      exact hplace.resolve_right fun hnone => hnone x hx hp
    · rw [State.goto_of_ne hp]
      exact h.place x hx
  logging q logged b hq := by
    by_cases hp : q = p
    · subst hp
      rw [State.goto_self] at hq
      exact hlogging logged b hq
    · rw [State.goto_of_ne hp] at hq
      exact h.logging q logged b hq
  down hdown := (not_down hup hdown).elim

theorem wakeup (h : Holders s) : Holders s.wakeup where
  place x hx := by
    have hx := h.place x hx
    rwa [State.wakeup_of_ne]
    intro hasleep
    rw [hasleep] at hx
    rcases hx with hx | hx
    · cases hx
    · exact hx
  logging p logged b hp := by
    by_cases hasleep : s.pc p = .asleep
    · simp [State.wakeup, hasleep] at hp
    · rw [State.wakeup_of_ne hasleep] at hp
      exact h.logging p logged b hp
  down := h.down

/-- Nobody holds buffers outside of these places. -/
theorem holdsNone (h : Holders s) (hout : s.pc p ≠ .outside) (hp : ¬ (s.pc p).Active) :
    s.HoldsNone p := by
  intro x hx heq
  rcases h.place x hx with hx | hx
  · exact hout (heq ▸ hx)
  · exact hp (heq ▸ hx)

/-- A process in a `log_write` has the buffer. -/
theorem mem_locked (h : Holders s) {logged : List BlockNo} {b : BlockNo}
    (hp : s.pc p = .logging logged b) : b ∈ s.locked :=
  List.mem_map.mpr ⟨(p, b), h.logging p logged b hp, rfl⟩

theorem withDrive (h : Holders s) (d : Drive) : Holders (s.withDrive d) :=
  ⟨h.place, h.logging, h.down⟩

theorem withLog (h : Holders s) (log : Log) : Holders (s.withLog log) :=
  ⟨h.place, h.logging, h.down⟩

theorem stopped (h : Holders s) {ph : Phase} (hph : ¬ ph.Down) : Holders (s.inPhase ph) :=
  ⟨h.place, h.logging, fun hdown => absurd hdown hph⟩

theorem step (h : Holders s) (hs : FsLog.step area s a = some s') : Holders s' := by
  cases step_cases hs with
  | @bread p b d x hup huses =>
      refine ⟨?_, fun q logged c hq => List.mem_cons_of_mem _ (h.logging q logged c hq), ?_⟩
      · intro x hx
        rcases List.mem_cons.mp hx with rfl | hmem
        · change s.pc p = .outside ∨ (s.pc p).Active
          cases hpc : s.pc p with
          | outside => exact .inl rfl
          | inOp => exact .inr trivial
          | _ => rw [hpc] at huses; exact huses.elim
        · exact h.place x hmem
      · exact fun hdown => (not_down hup hdown).elim
  | @brelse p b hup huses =>
      refine ⟨fun x hx => h.place x (List.mem_of_mem_erase hx), ?_, ?_⟩
      · intro q logged c hq
        change s.pc q = _ at hq
        refine (List.mem_erase_of_ne ?_).mpr (h.logging q logged c hq)
        intro heq
        obtain ⟨rfl, rfl⟩ := Prod.mk.inj heq
        rw [hq] at huses
        exact huses
      · exact fun hdown => (not_down hup hdown).elim
  | call hup hp hnone => exact h.goto hup (.inr hnone) (by simp)
  | sleep hup hp =>
      exact h.goto hup (.inr (h.holdsNone (by simp [hp]) (by simp [hp, Pc.Active]))) (by simp)
  | enter hup =>
      refine goto (h.withLog _) ?_ (c := .inOp []) (.inl (.inr trivial)) (by simp)
      exact hup
  | @write p b data logged hup hp hheld =>
      refine goto (h.withDrive _) ?_ (c := .logging logged b) (.inl (.inr trivial)) ?_
      · exact hup
      · intro logged' b' heq
        obtain ⟨-, rfl⟩ := Pc.logging.inj heq
        exact hheld
  | @append p logged b hup hp =>
      refine goto ((h.withDrive _).withLog _) ?_ (c := .inOp (b :: logged)) (.inl (.inr trivial))
        (by simp)
      exact hup
  | breadPanic | overrun | endPanic | commitPanic | recoverPanic =>
      exact h.stopped fun hdown => hdown
  | writePanic => exact (h.withDrive _).stopped fun hdown => hdown
  | endOp hup hp hnone =>
      refine goto (h.withLog _) ?_ (.inr hnone) (by simp)
      exact hup
  | leave hup | endCommit hup =>
      refine goto (h.withLog _).wakeup ?_ (.inl (.inl rfl)) (by simp)
      exact hup
  | @nothing p hup hp | @begin p hup hp | @written p tail hup hp =>
      have hnone : s.HoldsNone p := h.holdsNone (by rw [hp]; simp) (by rw [hp]; exact id)
      exact h.goto hup (.inr hnone) (by simp)
  | @writeLog p tail b d hup hp | @writeHead p d hup hp | @install p tail b d hup hp
  | @eraseHead p d hup hp =>
      have hnone : s.HoldsNone p := h.holdsNone (by rw [hp]; simp) (by rw [hp]; exact id)
      refine goto (h.withDrive _) ?_ (.inr hnone) (by simp)
      exact hup
  | @installed p tail hup hp =>
      have hnone : s.HoldsNone p := h.holdsNone (by rw [hp]; simp) (by rw [hp]; exact id)
      refine goto (h.withLog _) ?_ (.inr hnone) (by simp)
      exact hup
  | readHead hph | reinstall hph | reinstalled hph | erase hph =>
      exact ⟨h.place, h.logging, fun _ => h.down (hph ▸ trivial)⟩
  | crash => exact .boot _

end Holders

theorem Reachable.control {disk : BlockNo → Block} {ok : State → Act → Prop}
    (h : Reachable (step area) ok (boot disk) s) : Control s :=
  h.invariant (.boot disk) fun _ _ _ hc _ hs => hc.step hs

end OsSolutions.FsLog
