import OsSolutions.Transition.Run
import OsSolutions.Verification.Pipe.Stream

/-! # Sleeping readers and writers

A writer that finds itself killed returns without a wakeup. That is the only way for a reader to
be left asleep. -/

namespace OsSolutions.Pipes

open Transition

variable {s s' : State} {a : Act} {p q : Fin NPROC}

/-- No writer sleeps without a reason: the buffer is full and there may be readers. -/
def WritersTold (s : State) : Prop :=
  ∀ p rest, s.pc p = .writeAsleep rest → s.pipe.full = true ∧ s.pipe.readopen = true

/-- No reader sleeps without a reason: the buffer is empty and there may be writers. -/
def ReadersTold (s : State) : Prop :=
  ∀ p n, s.pc p = .readAsleep n → s.pipe.empty = true ∧ s.pipe.writeopen = true

/-- No killed process writes more than the buffer holds while a reader sleeps. -/
def Heard (s : State) (a : Act) : Prop :=
  ∀ p addr, a = .run p → s.pc p = .write addr → s.killed p = true → PIPESIZE < addr.length →
    ∀ q n, s.pc q ≠ .readAsleep n

/-- Who is inside of `piperead` holds the read end open. -/
def Held (s : State) : Prop := ∀ p, (s.pc p).Reads → s.pipe.readopen = true

/-! ## The places of the sleepers after a step -/

theorem goto_asleep {c d : Pc} (h : (s.goto p c).pc q = d) (hc : c ≠ d) : s.pc q = d := by
  by_cases hq : q = p
  · subst hq
    rw [State.goto_self] at h
    exact absurd h hc
  · rwa [State.goto_of_ne hq] at h

theorem wakeReaders_readAsleep {n : ℕ} : s.wakeReaders.pc p ≠ .readAsleep n := by
  simp only [State.wakeReaders]
  split
  · simp
  · rename_i h
    exact h n

theorem wakeReaders_writeAsleep {rest : List UInt8} (h : s.wakeReaders.pc p = .writeAsleep rest) :
    s.pc p = .writeAsleep rest := by
  simp only [State.wakeReaders] at h
  split at h
  · cases h
  · exact h

theorem wakeWriters_writeAsleep {rest : List UInt8} :
    s.wakeWriters.pc p ≠ .writeAsleep rest := by
  simp only [State.wakeWriters]
  split
  · simp
  · rename_i h
    exact h rest

theorem wakeWriters_readAsleep {n : ℕ} (h : s.wakeWriters.pc p = .readAsleep n) :
    s.pc p = .readAsleep n := by
  simp only [State.wakeWriters] at h
  split at h
  · cases h
  · exact h

theorem wake_readAsleep {n : ℕ} (h : (s.wake p).pc q = .readAsleep n) :
    s.pc q = .readAsleep n := by
  rcases State.wake_cases s p with ⟨m, _, heq⟩ | ⟨rest, _, heq⟩ | ⟨_, _, heq⟩
  · rw [heq] at h
    exact goto_asleep h (by simp)
  · rw [heq] at h
    exact goto_asleep h (by simp)
  · rwa [heq] at h

theorem wake_writeAsleep {rest : List UInt8} (h : (s.wake p).pc q = .writeAsleep rest) :
    s.pc q = .writeAsleep rest := by
  rcases State.wake_cases s p with ⟨m, _, heq⟩ | ⟨rest, _, heq⟩ | ⟨_, _, heq⟩
  · rw [heq] at h
    exact goto_asleep h (by simp)
  · rw [heq] at h
    exact goto_asleep h (by simp)
  · rwa [heq] at h

theorem wake_reads : ((s.wake p).pc q).Reads ↔ (s.pc q).Reads := by
  have hgoto : ∀ c : Pc, (c.Reads ↔ (s.pc p).Reads) →
      (((s.goto p c).pc q).Reads ↔ (s.pc q).Reads) := by
    intro c hc
    by_cases hq : q = p
    · subst hq
      rw [State.goto_self]
      exact hc
    · rw [State.goto_of_ne hq]
  rcases State.wake_cases s p with ⟨m, hpc, heq⟩ | ⟨rest, hpc, heq⟩ | ⟨_, _, heq⟩
  · rw [heq]
    exact hgoto _ (by rw [hpc]; exact Iff.rfl)
  · rw [heq]
    exact hgoto _ (by rw [hpc]; exact Iff.rfl)
  · rw [heq]

/-! ## The open read end -/

theorem Held.goto {c : Pc} (h : Held s) (hc : c.Reads → s.pipe.readopen = true) :
    Held (s.goto p c) := by
  intro q hq
  by_cases hqp : q = p
  · subst hqp
    rw [State.goto_self] at hq
    exact hc hq
  · rw [State.goto_of_ne hqp] at hq
    exact h q hq

theorem Held.congr (h : Held s) (hopen : s'.pipe.readopen = s.pipe.readopen)
    (hreads : ∀ q, (s'.pc q).Reads → (s.pc q).Reads) : Held s' := by
  intro q hq
  rw [hopen]
  exact h q (hreads q hq)

theorem Held.read (h : Held s) {pipe : Pipe} {bytes : List UInt8}
    (hopen : pipe.readopen = s.pipe.readopen) :
    Held ((((s.withPipe pipe).deliver p bytes).wakeWriters).goto p .outside) := by
  refine Held.goto (Held.congr h hopen fun q hq => ?_) False.elim
  exact State.wakeWriters_reads.mp hq

theorem wake_pipe (s : State) (p : Fin NPROC) : (s.wake p).pipe = s.pipe := by
  rcases State.wake_cases s p with ⟨_, _, heq⟩ | ⟨_, _, heq⟩ | ⟨_, _, heq⟩
  · rw [heq]
    rfl
  · rw [heq]
    rfl
  · rw [heq]

theorem Held.step (h : Held s) (hbuf : Buffered s) (hs : step s a = some s') : Held s' := by
  cases step_cases hbuf.filled hs with
  | callWrite => exact Held.goto (s := s.pass _ _) h False.elim
  | callRead _ hopen => exact h.goto fun _ => hopen
  | wrote _ hspec | writeSleeps _ hspec =>
      refine Held.goto (Held.congr h hspec.ends.readopen fun q hq => ?_) False.elim
      exact State.wakeReaders_reads.mp hq
  | gaveUp _ hspec =>
      exact Held.goto (Held.congr h hspec.ends.readopen fun q hq => hq) False.elim
  | read _ hcopy => exact h.read hcopy.ends.readopen
  | readEnd _ hcopy => exact h.read hcopy.ends.readopen
  | readFails hpc => exact h.goto False.elim
  | @readSleeps p n hpc => exact h.goto fun _ => h p (hpc ▸ trivial)
  | @kill p =>
      have hpipe := wake_pipe (s.setKilled p) p
      exact Held.congr (s := s.setKilled p) h (by rw [hpipe]) fun q hq => wake_reads.mp hq
  | reap => exact h
  | closeWrite => exact h.congr rfl fun q hq => State.wakeReaders_reads.mp hq
  | closeRead _ hnone =>
      intro q hq
      rw [State.wakeWriters_reads] at hq
      exact absurd hq (hnone q)

/-! ## Sleeping writers -/

/-- The first byte of a section goes in only if the buffer has room. -/
theorem bytes_eq_nil {killed : Bool} {addr bytes : List UInt8} {pipe : Pipe} {e : WriteEnd}
    (hbuf : Buffered s) (hfull : s.pipe.full = true)
    (hspec : WriteSpec killed addr s.pipe s.bytesIn s.delivered.length bytes pipe e) :
    bytes = [] := by
  have hroom := hspec.filled.room
  rw [List.length_append] at hroom
  have hlen : s.bytesIn.length = s.delivered.length + 512 := hbuf.filled.full_iff.mp hfull
  exact List.eq_nil_of_length_eq_zero (by omega)

/-- A section of another writer leaves a full buffer full. -/
theorem full_of_full {killed : Bool} {addr bytes : List UInt8} {pipe : Pipe} {e : WriteEnd}
    (hbuf : Buffered s) (hfull : s.pipe.full = true)
    (hspec : WriteSpec killed addr s.pipe s.bytesIn s.delivered.length bytes pipe e) :
    pipe.full = true := by
  have hnil := bytes_eq_nil hbuf hfull hspec
  have hfilled := hspec.filled
  rw [hnil, List.append_nil] at hfilled
  exact hfilled.full_iff.mpr (hbuf.filled.full_iff.mp hfull)

theorem WritersTold.step (h : WritersTold s) (hbuf : Buffered s) (hs : step s a = some s') :
    WritersTold s' := by
  cases step_cases hbuf.filled hs with
  | callWrite | callRead | readFails | readSleeps =>
      intro q rest hq
      exact h q rest (goto_asleep hq (by simp))
  | wrote _ hspec =>
      intro q rest hq
      obtain ⟨hfull, hopen⟩ := h q rest (wakeReaders_writeAsleep (goto_asleep hq (by simp)))
      exact ⟨full_of_full hbuf hfull hspec, hspec.ends.readopen.trans hopen⟩
  | gaveUp _ hspec =>
      intro q rest hq
      obtain ⟨hfull, hopen⟩ := h q rest (goto_asleep hq (by simp))
      exact ⟨full_of_full hbuf hfull hspec, hspec.ends.readopen.trans hopen⟩
  | writeSleeps _ hspec =>
      intro q rest hq
      exact ⟨hspec.full (by simp), hspec.ends.readopen.trans (hspec.asleep _ rfl).1⟩
  | read | readEnd =>
      intro q rest hq
      exact absurd (goto_asleep (c := .outside) hq (by simp)) wakeWriters_writeAsleep
  | @kill p =>
      intro q rest hq
      rw [wake_pipe]
      exact h q rest (wake_writeAsleep (s := s.setKilled p) hq)
  | reap => exact h
  | closeWrite =>
      intro q rest hq
      exact h q rest (wakeReaders_writeAsleep hq)
  | closeRead =>
      intro q rest hq
      exact absurd hq wakeWriters_writeAsleep

/-! ## Sleeping readers -/

/-- A reader only sleeps while there may be writers, whoever has been killed. -/
def ReadersHope (s : State) : Prop :=
  ∀ p n, s.pc p = .readAsleep n → s.pipe.writeopen = true

theorem ReadersHope.step (h : ReadersHope s) (hbuf : Buffered s) (hs : step s a = some s') :
    ReadersHope s' := by
  cases step_cases hbuf.filled hs with
  | callWrite | callRead | readFails =>
      intro q n hq
      exact h q n (goto_asleep hq (by simp))
  | wrote _ hspec | writeSleeps _ hspec =>
      intro q n hq
      exact absurd (goto_asleep hq (by simp)) wakeReaders_readAsleep
  | gaveUp _ hspec =>
      intro q n hq
      exact hspec.ends.writeopen.trans (h q n (goto_asleep hq (by simp)))
  | read _ hcopy | readEnd _ hcopy =>
      intro q n hq
      have hasleep := wakeWriters_readAsleep (goto_asleep (c := .outside) hq (by simp))
      exact hcopy.ends.writeopen.trans (h q n hasleep)
  | readSleeps _ _ hopen =>
      intro q n hq
      exact hopen
  | @kill p =>
      intro q n hq
      rw [wake_pipe]
      exact h q n (wake_readAsleep (s := s.setKilled p) hq)
  | reap => exact h
  | closeWrite =>
      intro q n hq
      exact absurd hq wakeReaders_readAsleep
  | closeRead =>
      intro q n hq
      exact h q n (wakeWriters_readAsleep hq)

/-- A section that gives up leaves a full buffer behind. -/
theorem gaveUp_told_iff (hbuf : Buffered s) (hheld : Held s) (h : ReadersTold s)
    {addr bytes rest : List UInt8} {pipe : Pipe} (hpc : s.pc p = .write addr)
    (hspec : WriteSpec (s.killed p) addr s.pipe s.bytesIn s.delivered.length bytes pipe
      (.failed rest)) :
    ReadersTold ((((s.withPipe pipe).accept p bytes).fail p).goto p .outside) ↔
      Heard s (.run p) := by
  have hfull := hspec.full (by simp)
  have hmore : (s.bytesIn ++ bytes).length = s.delivered.length + 512 :=
    hspec.filled.full_iff.mp hfull
  rw [List.length_append] at hmore
  have hlen : bytes.length + rest.length = addr.length := by
    rw [hspec.split, List.length_append]
    rfl
  have hnotempty : ¬ pipe.empty = true := by
    rw [hspec.filled.empty_iff, List.length_append, hmore]
    omega
  constructor
  · intro htold q addr' hq hpc' hkilled hlong r n hr
    obtain rfl := Act.run.inj hq
    have hasleep : ((((s.withPipe pipe).accept p bytes).fail p).goto p .outside).pc r =
        .readAsleep n := by
      rw [State.goto_of_ne]
      · exact hr
      · rintro rfl
        rw [hpc] at hr
        cases hr
    exact hnotempty (htold r n hasleep).1
  · intro hheard r n hr
    exfalso
    have hasleep := goto_asleep (s := ((s.withPipe pipe).accept p bytes).fail p) hr (by simp)
    have hempty := hbuf.filled.empty_iff.mp (h r n hasleep).1
    have hkilled : s.killed p = true := by
      refine (hspec.failed rest rfl).resolve_left fun hclosed => ?_
      have hopen := hheld r (by rw [show s.pc r = _ from hasleep]; trivial)
      rw [hclosed] at hopen
      cases hopen
    refine hheard p addr rfl hpc hkilled ?_ r n hasleep
    have hpos : 0 < rest.length := List.length_pos_iff.mpr (hspec.more (by simp))
    change 512 < addr.length
    omega

/-- Out of a state in which every sleeping reader has a reason, a step leads to such a state
exactly when no killed process writes too much. -/
theorem told_iff_heard (hbuf : Buffered s) (hheld : Held s) (h : ReadersTold s)
    (hs : step s a = some s') : ReadersTold s' ↔ Heard s a := by
  have hreading : ∀ {p : Fin NPROC} {n}, s.pc p = .read n → Heard s (.run p) := by
    rintro p n hpc q addr hq hpc'
    obtain rfl := Act.run.inj hq
    rw [hpc] at hpc'
    cases hpc'
  cases step_cases hbuf.filled hs with
  | callWrite | callRead =>
      refine iff_of_true (fun q n hq => ?_) fun _ _ ha => by cases ha
      exact h q n (goto_asleep hq (by simp))
  | @wrote p addr bytes pipe hpc hspec =>
      refine iff_of_true (fun q n hq => ?_) fun q addr' hq hpc' _ hlong r n hr => ?_
      · exact absurd (goto_asleep (c := .outside) hq (by simp)) wakeReaders_readAsleep
      · obtain rfl := Act.run.inj hq
        obtain rfl := Pc.write.inj (hpc.symm.trans hpc')
        have hempty := hbuf.filled.empty_iff.mp (h r n hr).1
        have hroom := hspec.filled.room
        rw [List.length_append] at hroom
        have hall : addr = bytes := hspec.split.trans (List.append_nil bytes)
        rw [hall] at hlong
        change 512 < bytes.length at hlong
        omega
  | @gaveUp p addr bytes pipe rest hpc hspec => exact gaveUp_told_iff hbuf hheld h hpc hspec
  | @writeSleeps p addr bytes pipe rest hpc hspec =>
      refine iff_of_true (fun q n hq => ?_) fun q addr' hq _ hkilled => ?_
      · exact absurd (goto_asleep (c := .writeAsleep rest) hq (by simp)) wakeReaders_readAsleep
      · obtain rfl := Act.run.inj hq
        rw [(hspec.asleep rest rfl).2] at hkilled
        cases hkilled
  | read hpc _ hopen | readEnd hpc _ hopen =>
      refine iff_of_true (fun q n hq => ?_) (hreading hpc)
      -- whoever sleeps would have made this reader sleep as well
      have hasleep := h q n (wakeWriters_readAsleep (goto_asleep (c := .outside) hq (by simp)))
      have hall := hbuf.filled.empty_iff.mp hasleep.1
      rcases hopen with hlt | hclosed
      · omega
      · rw [hasleep.2] at hclosed
        cases hclosed
  | readFails hpc =>
      refine iff_of_true (fun q n hq => ?_) (hreading hpc)
      exact h q n (goto_asleep hq (by simp))
  | @readSleeps p n hpc hall hopen =>
      refine iff_of_true (fun q m hq => ?_) (hreading hpc)
      exact ⟨hbuf.filled.empty_iff.mpr hall, hopen⟩
  | @kill p =>
      refine iff_of_true (fun q n hq => ?_) fun _ _ ha => by cases ha
      rw [wake_pipe]
      exact h q n (wake_readAsleep (s := s.setKilled p) hq)
  | reap => exact iff_of_true h fun _ _ ha => by cases ha
  | closeWrite =>
      refine iff_of_true (fun q n hq => ?_) fun _ _ ha => by cases ha
      exact absurd hq wakeReaders_readAsleep
  | closeRead =>
      refine iff_of_true (fun q n hq => ?_) fun _ _ ha => by cases ha
      exact h q n (wakeWriters_readAsleep hq)

/-! ## Every run -/

/-- Whoever sleeps, the other end of the pipe is open. -/
theorem sleepers_hope {page : Fin PIPESIZE → UInt8} (h : Reachable step Free (init page) s) :
    WritersTold s ∧ ReadersHope s := by
  have hall : Buffered s ∧ WritersTold s ∧ ReadersHope s :=
    h.invariant (P := fun s => Buffered s ∧ WritersTold s ∧ ReadersHope s)
      ⟨buffered_init page, nofun, nofun⟩
      fun _ _ _ hi _ hs => ⟨hi.1.step hs, hi.2.1.step hi.1 hs, hi.2.2.step hi.1 hs⟩
  exact hall.2

/-- A writer never sleeps while there is room or the last reader is gone. A reader never sleeps
while there are bytes or the last writer is gone, exactly in the runs in which no killed process
comes to write more than `PIPESIZE` bytes while a reader sleeps: it fills the buffer and returns
-1 without a wakeup. -/
theorem no_lost_wakeup_iff (page : Fin PIPESIZE → UInt8) (as : List Act) :
    Always step WritersTold (init page) as ∧
      (Always step ReadersTold (init page) as ↔ Meets step Heard (init page) as) := by
  constructor
  · have hm : Meets step Free (init page) as := meets_of_mem (fun _ _ _ => trivial) _
    have hboth : Always step (fun s => Buffered s ∧ WritersTold s) (init page) as :=
      hm.always ⟨buffered_init page, nofun⟩
        fun _ _ _ h _ hs => ⟨h.1.step hs, h.2.step h.1 hs⟩
    exact hboth.imp fun _ h => h.2
  · exact always_iff_meets_of (I := fun s => Buffered s ∧ Held s)
      (fun _ _ _ hi h hs => told_iff_heard hi.1 hi.2 h hs)
      (fun _ _ _ hi _ _ hs => ⟨hi.1.step hs, hi.2.step hi.1 hs⟩)
      ⟨buffered_init page, fun _ hp => absurd hp id⟩ nofun as

end OsSolutions.Pipes
