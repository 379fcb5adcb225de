import OsSolutions.Transition.Run
import OsSolutions.Verification.Pipe.Steps

/-! # A pipe is a stream of bytes -/

namespace OsSolutions.Pipes

open Storage Transition

variable {s s' : State} {a : Act} {p q : Fin NPROC}

/-- What came out is a first part of what went in, and what is between is in the buffer. -/
structure Buffered (s : State) : Prop where
  filled : s.Filled
  taken : s.bytesOut = s.bytesIn.take s.delivered.length

/-- What a process has passed to `pipewrite` went in or is about to go in, in order, apart from
the rests of calls that have failed. -/
structure Sent (s : State) (p : Fin NPROC) : Prop where
  order : (s.sent p ++ (s.pc p).rest).Sublist (s.passed p)
  whole : s.failed p = false → s.sent p ++ (s.pc p).rest = s.passed p

/-- After an end of file nothing is in the pipe and nothing will be. -/
structure Ended (s : State) : Prop where
  closed : ∀ p, s.eof p = true → s.pipe.writeopen = false
  drained : ∀ p, s.eof p = true → s.delivered.length = s.bytesIn.length
  writers : ∀ p, (s.pc p).Writes → s.pipe.writeopen = true

/-! ## The buffer -/

theorem buffered_init (page : Fin PIPESIZE → UInt8) : Buffered (init page) :=
  ⟨Pipe.filled_alloc page, rfl⟩

theorem Buffered.accept (h : Buffered s) {bytes : List UInt8} {q : Pipe}
    (hq : q.Filled (s.bytesIn ++ bytes) s.delivered.length) :
    Buffered ((s.withPipe q).accept p bytes) where
  filled := by
    change q.Filled ((s.withPipe q).accept p bytes).bytesIn s.delivered.length
    rw [State.bytesIn_accept]
    exact hq
  taken := by
    rw [State.bytesIn_accept]
    change s.bytesOut = (s.bytesIn ++ bytes).take s.delivered.length
    rw [h.taken, List.take_append_of_le_length h.filled.window.le]

theorem Buffered.deliver (h : Buffered s) {n : ℕ} {bytes : List UInt8} {q : Pipe}
    (hq : CopySpec n s.pipe s.bytesIn s.delivered.length q bytes) :
    Buffered ((s.withPipe q).deliver p bytes) := by
  have hlen : ((s.withPipe q).deliver p bytes).delivered.length =
      s.delivered.length + bytes.length := by
    simp [State.deliver, State.withPipe]
  constructor
  · change q.Filled s.bytesIn ((s.withPipe q).deliver p bytes).delivered.length
    rw [hlen]
    exact hq.filled
  · rw [State.bytesOut_deliver, hlen]
    change s.bytesOut ++ bytes = s.bytesIn.take (s.delivered.length + bytes.length)
    rw [h.taken, List.take_add, ← hq.next]

/-- The flags and the places of the processes do not matter. -/
theorem Buffered.congr (h : Buffered s) (hin : s'.accepted = s.accepted)
    (hout : s'.delivered = s.delivered) (hpipe : s'.pipe.data = s.pipe.data)
    (hread : s'.pipe.nread = s.pipe.nread) (hwrite : s'.pipe.nwrite = s.pipe.nwrite) :
    Buffered s' := by
  have hbytes : s'.bytesIn = s.bytesIn := by rw [State.bytesIn, State.bytesIn, hin]
  refine ⟨⟨?_, ?_, ?_⟩, ?_⟩
  · rw [hpipe, hbytes, hout]
    exact h.filled.window
  · rw [hread, hout]
    exact h.filled.nread
  · rw [hwrite, hbytes]
    exact h.filled.nwrite
  · rw [State.bytesOut, hout, hbytes]
    exact h.taken

theorem Buffered.wake (h : Buffered s) (p : Fin NPROC) : Buffered (s.wake p) := by
  rcases State.wake_cases s p with ⟨n, _, heq⟩ | ⟨rest, _, heq⟩ | ⟨_, _, heq⟩
  · rw [heq]
    exact h.congr rfl rfl rfl rfl rfl
  · rw [heq]
    exact h.congr rfl rfl rfl rfl rfl
  · rw [heq]
    exact h

theorem Buffered.step (h : Buffered s) (hs : step s a = some s') : Buffered s' := by
  cases step_cases h.filled hs with
  | callWrite | callRead | readFails | readSleeps | reap => exact h.congr rfl rfl rfl rfl rfl
  | wrote _ hspec => exact (h.accept hspec.filled).congr rfl rfl rfl rfl rfl
  | gaveUp _ hspec => exact (h.accept hspec.filled).congr rfl rfl rfl rfl rfl
  | writeSleeps _ hspec => exact (h.accept hspec.filled).congr rfl rfl rfl rfl rfl
  | read _ hcopy => exact (h.deliver hcopy).congr rfl rfl rfl rfl rfl
  | readEnd _ hcopy => exact (h.deliver hcopy).congr rfl rfl rfl rfl rfl
  | @kill p =>
      have hkilled : Buffered (s.setKilled p) := h.congr rfl rfl rfl rfl rfl
      exact hkilled.wake p
  | closeWrite | closeRead => exact h.congr rfl rfl rfl rfl rfl

/-! ## The calls of one process -/

theorem Sent.congr (h : Sent s p) (hsent : s'.sent p = s.sent p)
    (hrest : (s'.pc p).rest = (s.pc p).rest) (hpassed : s'.passed p = s.passed p)
    (hfailed : s'.failed p = s.failed p) : Sent s' p := by
  constructor
  · rw [hsent, hrest, hpassed]
    exact h.order
  · rw [hsent, hrest, hpassed, hfailed]
    exact h.whole

/-- A section of `pipewrite` moves bytes from the call into the pipe. -/
theorem Sent.accept (h : Sent s p) {addr bytes rest : List UInt8} (hpc : s.pc p = .write addr)
    (hsplit : addr = bytes ++ rest) (hsent : s'.sent p = s.sent p ++ bytes)
    (hrest : (s'.pc p).rest = rest) (hpassed : s'.passed p = s.passed p)
    (hfailed : s'.failed p = s.failed p) : Sent s' p := by
  have heq : s'.sent p ++ (s'.pc p).rest = s.sent p ++ (s.pc p).rest := by
    rw [hsent, hrest, hpc, List.append_assoc, ← hsplit]
    rfl
  constructor
  · rw [heq, hpassed]
    exact h.order
  · rw [heq, hpassed, hfailed]
    exact h.whole

theorem Sent.goto {c : Pc} (h : Sent s p) (hrest : q = p → c.rest = (s.pc p).rest) :
    Sent (s.goto q c) p := by
  refine h.congr rfl ?_ rfl rfl
  by_cases hq : q = p
  · subst hq
    rw [State.goto_self]
    exact hrest rfl
  · rw [State.goto_of_ne (Ne.symm hq)]

theorem Sent.wake (h : Sent s p) (q : Fin NPROC) : Sent (s.wake q) p := by
  rcases State.wake_cases s q with ⟨n, hpc, heq⟩ | ⟨rest, hpc, heq⟩ | ⟨_, _, heq⟩
  · rw [heq]
    exact h.goto fun hq => by rw [← hq, hpc]; rfl
  · rw [heq]
    exact h.goto fun hq => by rw [← hq, hpc]; rfl
  · rw [heq]
    exact h

theorem Sent.step (h : ∀ p, Sent s p) (hbuf : Buffered s) (hs : step s a = some s')
    (p : Fin NPROC) : Sent s' p := by
  cases step_cases hbuf.filled hs with
  | @callWrite q addr hpc =>
      by_cases hq : q = p
      · subst hq
        have hp := h q
        have hpassed : ((s.pass q addr).goto q (.write addr)).passed q = s.passed q ++ addr :=
          Function.update_self ..
        have hrest : s.sent q ++ (s.pc q).rest = s.sent q := by
          rw [hpc]
          exact List.append_nil _
        constructor
        · rw [State.goto_self, hpassed]
          have horder := hp.order
          rw [hrest] at horder
          exact horder.append (List.Sublist.refl addr)
        · intro hfailed
          rw [State.goto_self, hpassed, ← hp.whole hfailed, hrest]
          rfl
      · exact (h p).congr rfl (by rw [State.goto_of_ne (Ne.symm hq)]; rfl)
          (Function.update_of_ne (Ne.symm hq) _ _) rfl
  | callRead hpc | readFails hpc | readSleeps hpc =>
      exact (h p).goto fun hq => by rw [← hq, hpc]; rfl
  | @wrote q addr bytes pipe hpc hspec =>
      by_cases hq : q = p
      · subst hq
        exact (h q).accept hpc hspec.split (State.sent_accept_self (s.withPipe pipe) q bytes)
          (by rw [State.goto_self]; rfl) rfl rfl
      · refine (h p).congr (State.sent_accept_of_ne bytes (Ne.symm hq)) ?_ rfl rfl
        rw [State.goto_of_ne (Ne.symm hq), State.wakeReaders_rest]
        rfl
  | @gaveUp q addr bytes pipe rest hpc hspec =>
      by_cases hq : q = p
      · subst hq
        constructor
        · rw [State.goto_self]
          have hsent : ((((s.withPipe pipe).accept q bytes).fail q).goto q .outside).sent q =
              s.sent q ++ bytes := State.sent_accept_self (s.withPipe pipe) q bytes
          have horder := (h q).order
          rw [hpc] at horder
          change (s.sent q ++ addr).Sublist _ at horder
          rw [hspec.split, ← List.append_assoc] at horder
          rw [hsent]
          change (s.sent q ++ bytes ++ []).Sublist _
          rw [List.append_nil]
          exact (List.sublist_append_left _ _).trans horder
        · intro hfailed
          have htrue : ((((s.withPipe pipe).accept q bytes).fail q).goto q .outside).failed q =
              true := Function.update_self ..
          rw [htrue] at hfailed
          cases hfailed
      · exact (h p).congr (State.sent_accept_of_ne bytes (Ne.symm hq))
          (by rw [State.goto_of_ne (Ne.symm hq)]; rfl) rfl
          (Function.update_of_ne (Ne.symm hq) _ _)
  | @writeSleeps q addr bytes pipe rest hpc hspec =>
      by_cases hq : q = p
      · subst hq
        exact (h q).accept hpc hspec.split (State.sent_accept_self (s.withPipe pipe) q bytes)
          (by rw [State.goto_self]; rfl) rfl rfl
      · refine (h p).congr (State.sent_accept_of_ne bytes (Ne.symm hq)) ?_ rfl rfl
        rw [State.goto_of_ne (Ne.symm hq), State.wakeReaders_rest]
        rfl
  | @read q n pipe bytes hpc =>
      refine Sent.goto ((h p).congr rfl (by rw [State.wakeWriters_rest]; rfl) rfl rfl) ?_
      intro hq
      rw [State.wakeWriters_rest, ← hq]
      change [] = (s.pc q).rest
      rw [hpc]
      rfl
  | @readEnd q n pipe hpc =>
      refine Sent.congr (Sent.goto (s := ((s.withPipe pipe).deliver q []).wakeWriters)
        (c := .outside) (q := q)
        ((h p).congr rfl (by rw [State.wakeWriters_rest]; rfl) rfl rfl) ?_) rfl rfl rfl rfl
      intro hq
      rw [State.wakeWriters_rest, ← hq]
      change [] = (s.pc q).rest
      rw [hpc]
      rfl
  | @kill q =>
      have hkilled : Sent (s.setKilled q) p := (h p).congr rfl rfl rfl rfl
      exact hkilled.wake q
  | reap => exact (h p).congr rfl rfl rfl rfl
  | closeWrite => exact (h p).congr rfl (by rw [State.wakeReaders_rest]; rfl) rfl rfl
  | closeRead => exact (h p).congr rfl (by rw [State.wakeWriters_rest]; rfl) rfl rfl

/-! ## The end of the stream -/

theorem Ended.congr (h : Ended s) (heof : s'.eof = s.eof)
    (hopen : s'.pipe.writeopen = s.pipe.writeopen) (hout : s'.delivered = s.delivered)
    (hin : s'.bytesIn = s.bytesIn) (hw : ∀ p, (s'.pc p).Writes → (s.pc p).Writes) :
    Ended s' := by
  refine ⟨?_, ?_, ?_⟩
  · rw [heof, hopen]
    exact h.closed
  · rw [heof, hout, hin]
    exact h.drained
  · intro p hp
    rw [hopen]
    exact h.writers p (hw p hp)

/-- While a process writes there has been no end of file. -/
theorem Ended.no_eof (h : Ended s) (hp : (s.pc p).Writes) (q : Fin NPROC) : s.eof q = false := by
  by_contra heof
  have hclosed := h.closed q (by simpa using heof)
  rw [h.writers p hp] at hclosed
  cases hclosed

theorem Ended.goto {c : Pc} (h : Ended s) (hc : c.Writes → (s.pc q).Writes) :
    Ended (s.goto q c) := by
  refine h.congr rfl rfl rfl rfl ?_
  intro p hp
  by_cases hq : p = q
  · subst hq
    rw [State.goto_self] at hp
    exact hc hp
  · rwa [State.goto_of_ne hq] at hp

theorem Ended.wake (h : Ended s) (q : Fin NPROC) : Ended (s.wake q) := by
  rcases State.wake_cases s q with ⟨n, _, heq⟩ | ⟨rest, hpc, heq⟩ | ⟨_, _, heq⟩
  · rw [heq]
    exact h.goto False.elim
  · rw [heq]
    exact h.goto fun _ => hpc ▸ trivial
  · rw [heq]
    exact h

/-- Bytes that go in while a process writes. -/
theorem Ended.accept (h : Ended s) {bytes : List UInt8} {q : Pipe} (hp : (s.pc p).Writes)
    (hends : Pipe.SameEnds s.pipe q) : Ended ((s.withPipe q).accept p bytes) := by
  refine ⟨?_, ?_, ?_⟩
  · intro r hr
    exact absurd hr (by simp [State.accept, State.withPipe, h.no_eof hp r])
  · intro r hr
    exact absurd hr (by simp [State.accept, State.withPipe, h.no_eof hp r])
  · intro r hr
    exact hends.writeopen.trans (h.writers r hr)

/-- Bytes that come out, and with them possibly the end. -/
theorem Ended.deliver (h : Ended s) {n : ℕ} {bytes : List UInt8} {q : Pipe}
    (hcopy : CopySpec n s.pipe s.bytesIn s.delivered.length q bytes) :
    Ended ((s.withPipe q).deliver p bytes) := by
  have hlen : ((s.withPipe q).deliver p bytes).delivered.length =
      s.delivered.length + bytes.length := by
    simp [State.deliver, State.withPipe]
  refine ⟨fun r hr => hcopy.ends.writeopen.trans (h.closed r hr), ?_,
    fun r hr => hcopy.ends.writeopen.trans (h.writers r hr)⟩
  intro r hr
  have hle := hcopy.filled.window.le
  have hdrained := h.drained r hr
  rw [hlen]
  change _ = s.bytesIn.length
  omega

theorem Ended.step (h : Ended s) (hbuf : Buffered s) (hs : step s a = some s') :
    Ended s' := by
  cases step_cases hbuf.filled hs with
  | @callWrite p addr hpc hopen =>
      refine ⟨h.closed, h.drained, ?_⟩
      intro q hq
      exact hopen
  | callRead => exact h.goto False.elim
  | readFails | readSleeps => exact h.goto False.elim
  | wrote hpc hspec =>
      refine Ended.goto
        (Ended.congr (h.accept (hpc ▸ trivial) hspec.ends) rfl rfl rfl rfl ?_) False.elim
      exact fun p hp => State.wakeReaders_writes.mp hp
  | gaveUp hpc hspec =>
      refine Ended.goto
        (Ended.congr (h.accept (hpc ▸ trivial) hspec.ends) rfl rfl rfl rfl ?_) False.elim
      exact fun p hp => hp
  | @writeSleeps p addr bytes q rest hpc hspec =>
      have hafter : Ended ((s.withPipe q).accept p bytes) := h.accept (hpc ▸ trivial) hspec.ends
      refine Ended.goto (Ended.congr hafter rfl rfl rfl rfl ?_) ?_
      · exact fun p hp => State.wakeReaders_writes.mp hp
      · intro _
        rw [State.wakeReaders_writes]
        exact hpc ▸ trivial
  | read hpc hcopy =>
      refine Ended.goto (Ended.congr (h.deliver hcopy) rfl rfl rfl rfl ?_) False.elim
      exact fun p hp => State.wakeWriters_writes.mp hp
  | @readEnd p n q hpc hcopy hopen hn =>
      have hafter : Ended ((((s.withPipe q).deliver p []).wakeWriters).goto p .outside) := by
        refine Ended.goto (Ended.congr (h.deliver hcopy) rfl rfl rfl rfl ?_) False.elim
        exact fun p hp => State.wakeWriters_writes.mp hp
      -- nothing was copied, so the buffer was empty
      have hall : s.delivered.length = s.bytesIn.length := by
        rcases hcopy.stop with hzero | hall
        · simp at hzero
          omega
        · simpa using hall
      have hclosed : q.writeopen = false :=
        hcopy.ends.writeopen.trans (hopen.resolve_left (by omega))
      refine ⟨fun _ _ => hclosed, fun r _ => ?_, hafter.writers⟩
      change ((s.withPipe q).deliver p []).delivered.length = s.bytesIn.length
      rw [← hall]
      simp [State.deliver, State.withPipe]
  | @kill p =>
      have hkilled : Ended (s.setKilled p) := h.congr rfl rfl rfl rfl fun _ hp => hp
      exact hkilled.wake p
  | reap => exact h.congr rfl rfl rfl rfl fun _ hp => hp
  | closeWrite hopen hnone =>
      refine ⟨fun _ _ => rfl, h.drained, ?_⟩
      intro p hp
      rw [State.wakeReaders_writes] at hp
      exact absurd hp (hnone p)
  | closeRead =>
      refine h.congr rfl rfl rfl rfl ?_
      exact fun p hp => State.wakeWriters_writes.mp hp

/-! ## Every run -/

theorem run_stream {page : Fin PIPESIZE → UInt8} {as : List Act}
    (hr : run step (init page) as = some s) :
    Buffered s ∧ (∀ p, Sent s p) ∧ Ended s :=
  (reachable_of_run hr).invariant
    (P := fun s => Buffered s ∧ (∀ p, Sent s p) ∧ Ended s)
    ⟨buffered_init page, fun _ => ⟨List.Sublist.refl _, fun _ => rfl⟩,
      nofun, nofun, fun _ hp => absurd hp id⟩
    fun _ _ _ h _ hs => ⟨h.1.step hs, Sent.step h.2.1 h.1 hs, h.2.2.step h.1 hs⟩

/-- The bytes come out in the order in which they went in, and at most `PIPESIZE` of them are
under way in `data`, however often the counters have wrapped around. The bytes of each writer went
in in the order of its calls, all of them up to the place where it is now unless one of its calls
has failed. After an end of file the pipe is empty and has no writers. -/
theorem pipe_stream {page : Fin PIPESIZE → UInt8} {as : List Act}
    (hr : run step (init page) as = some s) :
    (∃ buffer, s.bytesIn = s.bytesOut ++ buffer ∧
      buffer.length = (s.pipe.nwrite - s.pipe.nread).toNat ∧
      (∀ i x, buffer[i]? = some x → s.pipe.data (Pipe.slot (s.pipe.nread + UInt32.ofNat i)) = x) ∧
      buffer.length ≤ PIPESIZE ∧
      ∀ p, s.eof p = true → s.pipe.writeopen = false ∧ buffer = []) ∧
    ∀ p, (s.sent p ++ (s.pc p).rest).Sublist (s.passed p) ∧
      (s.failed p = false → s.sent p ++ (s.pc p).rest = s.passed p) := by
  obtain ⟨hbuf, hsent, hend⟩ := run_stream hr
  have hroom := hbuf.filled.window.room
  refine ⟨⟨s.bytesIn.drop s.delivered.length, ?_, ?_, fun i x => hbuf.filled.data_eq, ?_, ?_⟩,
    fun p => ⟨(hsent p).order, (hsent p).whole⟩⟩
  · rw [hbuf.taken, List.take_append_drop]
  · rw [List.length_drop, hbuf.filled.length_eq]
  · rw [List.length_drop]
    omega
  · intro p hp
    refine ⟨hend.closed p hp, ?_⟩
    rw [List.drop_eq_nil_iff, hend.drained p hp]

/-- Two calls, with a byte left in the buffer. -/
theorem pipe_stream_two_calls : ∃ s buffer,
    run step (init fun _ => 0)
      [.callWrite 0 [10, 11, 12], .run 0, .callRead 1 2, .run 1, .close true] = some s ∧
    s.bytesOut = [10, 11] ∧ s.bytesIn = s.bytesOut ++ buffer ∧ buffer.length ≤ PIPESIZE ∧
    s.sent 0 ++ (s.pc 0).rest = [10, 11, 12] := by
  obtain ⟨s, hrun, hout, hfailed, hpassed⟩ : ∃ s, run step (init fun _ => 0)
      [.callWrite 0 [10, 11, 12], .run 0, .callRead 1 2, .run 1, .close true] = some s ∧
      s.bytesOut = [10, 11] ∧ s.failed 0 = false ∧ s.passed 0 = [10, 11, 12] :=
    ⟨_, rfl, rfl, rfl, rfl⟩
  obtain ⟨⟨buffer, hin, _, _, hle, _⟩, hcalls⟩ := pipe_stream hrun
  exact ⟨s, buffer, hrun, hout, hin, hle, ((hcalls 0).2 hfailed).trans hpassed⟩

end OsSolutions.Pipes
