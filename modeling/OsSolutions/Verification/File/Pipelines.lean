import OsSolutions.Verification.File.Streams
import OsSolutions.Verification.Pipe.Sleepers

/-! # Pipes between processes

The results about one pipe hold of every pipe of the system, and the flags of a pipe mean what a
reader or a writer takes them for. -/

namespace OsSolutions.Files

open Pointers Transition

variable {Page : Type} [DecidableEq Page] {s : State Page} {p : Fin NPROC} {pg : Page} {q : Pipe}

/-- Whatever the processes open, copy, close and kill: the pipe in a page in use is one that the
machine of one pipe reaches, its bytes come out in the order in which they went in since it was
made, and those in between are in its `data`. -/
theorem pipes_refine (h : Reachable step Free boot s) (hq : s.pages pg = some q) :
    (∃ data t, Reachable Pipes.step Free (Pipes.init data) t ∧ Shows s pg t) ∧
      ∃ buffer, s.bytesIn pg = s.bytesOut pg ++ buffer ∧
        buffer.length = (q.nwrite - q.nread).toNat ∧
        (∀ i x, buffer[i]? = some x → q.data (Pipe.slot (q.nread + UInt32.ofNat i)) = x) ∧
        buffer.length ≤ PIPESIZE := by
  obtain ⟨data, t, ht, hst⟩ := shows_of_reachable h pg (by simp [hq])
  refine ⟨⟨data, t, ht, hst⟩, ?_⟩
  obtain ⟨as, hrun, _⟩ := reachable_iff_run.mp ht
  obtain ⟨hbuf, _, _⟩ := Pipes.run_stream hrun
  obtain rfl : q = t.pipe := Option.some.inj (hq.symm.trans hst.pipe)
  have hroom := hbuf.filled.window.room
  refine ⟨t.bytesIn.drop t.delivered.length, ?_, ?_, fun i x => hbuf.filled.data_eq, ?_⟩
  · rw [← hst.bytesIn, ← hst.bytesOut, hbuf.taken, List.take_append_drop]
  · rw [List.length_drop, hbuf.filled.length_eq]
  · rw [List.length_drop]
    omega

theorem pipes_refine_write_read : ∃ (s : State Bool) (buffer : List UInt8),
    run step boot [.pipe 0, .run 0, .kalloc 0 (some (true, fun _ => 0)), .write 0 1 [10, 11, 12],
      .run 0, .read 0 0 2, .run 0] = some s ∧ s.bytesOut true = [10, 11] ∧
      s.bytesIn true = s.bytesOut true ++ buffer ∧ buffer.length ≤ PIPESIZE := by
  obtain ⟨s, q, hrun, hq, hout⟩ : ∃ (s : State Bool) (q : Pipe),
      run step boot [.pipe 0, .run 0, .kalloc 0 (some (true, fun _ => 0)),
        .write 0 1 [10, 11, 12], .run 0, .read 0 0 2, .run 0] = some s ∧
        s.pages true = some q ∧ s.bytesOut true = [10, 11] := ⟨_, _, rfl, rfl, rfl⟩
  obtain ⟨_, buffer, hin, _, _, hle⟩ := pipes_refine (reachable_of_run hrun) hq
  exact ⟨s, buffer, hrun, hout, hin, hle⟩

/-- A file for the end of the pipe, or a process about to close that end. -/
def State.Held (s : State Page) (e : Page × Bool) : Prop :=
  (∃ f, s.ftable.ends f = some e) ∨ ∃ p, (s.pc p).pend = some e

theorem held_iff_open (he : Ends s) (e : Page × Bool) : s.Held e ↔ s.isOpen e = true := by
  constructor
  · rintro (⟨f, hf⟩ | ⟨p, hp⟩)
    · exact he.open_of_file hf
    · exact he.open_of_pend hp
  · intro hopen
    have hone := he.one e
    rw [if_pos hopen] at hone
    unfold State.owners at hone
    by_contra hnone
    have hfiles : count s.ftable.ends e = 0 := by
      by_contra hpos
      exact hnone (.inl (count_pos_iff.mp (Nat.pos_of_ne_zero hpos)))
    have hpend : (tally fun p => if (s.pc p).pend = some e then 1 else 0) = 0 :=
      tally_eq_zero_iff.mpr fun p => if_neg fun hp => hnone (.inr ⟨p, hp⟩)
    omega

theorem copyOut_nil_iff {n : ℕ} (hn : 0 < n) (q : Pipe) :
    (copyOut n q).2 = [] ↔ q.empty = true := by
  cases n with
  | zero => omega
  | succ n =>
      rw [copyOut]
      split
      · rename_i hempty
        exact iff_of_true rfl hempty
      · rename_i hempty
        exact iff_of_false (by simp) hempty

/-- A section of `piperead` reports the end of the file if and only if the buffer is empty and no
file and no process holds the write end any more; and whoever sleeps in a call on a pipe, the
other end is held, so that its next use or its `pipeclose` wakes the sleeper. -/
theorem eof_iff_unheld (h : Reachable step Free (boot : State Page) s) :
    (∀ p f pg n q, s.pc p = .inPipe f pg (.read n) → 0 < n → s.pages pg = some q →
      ((piperead (s.kernel.proc p).killed n q).2 = .returned [] ↔
        q.empty = true ∧ ¬ s.Held (pg, true))) ∧
      (∀ p f pg n, s.pc p = .inPipe f pg (.readAsleep n) → s.Held (pg, true)) ∧
      ∀ p f pg rest, s.pc p = .inPipe f pg (.writeAsleep rest) → s.Held (pg, false) := by
  obtain ⟨hc, he⟩ := invariant h
  -- the page of a process inside of a call, and its pipe as the machine of one pipe reaches it
  have hinside : ∀ p f pg c, s.pc p = .inPipe f pg c →
      ∃ data t, Reachable Pipes.step Free (Pipes.init data) t ∧ Shows s pg t ∧ t.pc p = c := by
    intro p f pg c hpc
    have hknows := (hc.place p).knows
    rw [hpc] at hknows
    obtain ⟨q, hq, _⟩ := page_of_open (he.open_of_file hknows.2.2)
    change s.pages pg = some q at hq
    obtain ⟨data, t, ht, hst⟩ := shows_of_reachable h pg (by simp [hq])
    exact ⟨data, t, ht, hst, by rw [hst.pc p, hpc, inside_inPipe]⟩
  refine ⟨?_, ?_, ?_⟩
  · intro p f pg n q hpc hn hq
    have hflag : s.isOpen (pg, true) = q.writeopen := by simp [State.isOpen, hq, Pipe.isOpen]
    rw [held_iff_open he, hflag, piperead]
    by_cases hwait : (q.empty && q.writeopen) = true
    · rw [if_pos hwait]
      obtain ⟨_, hopen⟩ := Bool.and_eq_true_iff.mp hwait
      refine iff_of_false ?_ fun hclosed => hclosed.2 hopen
      split <;> simp
    · rw [if_neg hwait]
      simp only [ReadEnd.returned.injEq]
      rw [copyOut_nil_iff hn]
      refine ⟨fun hempty => ⟨hempty, fun hopen => hwait ?_⟩, fun hend => hend.1⟩
      rw [hempty, hopen]
      rfl
  · intro p f pg n hpc
    obtain ⟨data, t, ht, hst, htpc⟩ := hinside p f pg _ hpc
    rw [held_iff_open he, State.isOpen, hst.pipe]
    exact (Pipes.sleepers_hope ht).2 p n htpc
  · intro p f pg rest hpc
    obtain ⟨data, t, ht, hst, htpc⟩ := hinside p f pg _ hpc
    rw [held_iff_open he, State.isOpen, hst.pipe]
    exact ((Pipes.sleepers_hope ht).1 p rest htpc).2

theorem eof_iff_unheld_closed : ∃ (s : State Bool) (q : Pipe),
    run step boot [.pipe 0, .run 0, .kalloc 0 (some (true, fun _ => 0)), .close 0 1, .run 0,
      .run 0, .read 0 0 4] = some s ∧ s.pages true = some q ∧
      (piperead (s.kernel.proc 0).killed 4 q).2 = .returned [] ∧ ¬ s.Held (true, true) := by
  obtain ⟨s, q, hrun, hq, hpc, hend⟩ : ∃ (s : State Bool) (q : Pipe),
      run step boot [.pipe 0, .run 0, .kalloc 0 (some (true, fun _ => 0)), .close 0 1, .run 0,
        .run 0, .read 0 0 4] = some s ∧ s.pages true = some q ∧
        s.pc 0 = .inPipe 0 true (.read 4) ∧
        (piperead (s.kernel.proc 0).killed 4 q).2 = .returned [] := ⟨_, _, rfl, rfl, rfl, rfl⟩
  obtain ⟨heof, _⟩ := eof_iff_unheld (reachable_of_run hrun)
  exact ⟨s, q, hrun, hq, hend, ((heof 0 0 true 4 q hpc (by decide) hq).mp hend).2⟩

end OsSolutions.Files
