import OsSolutions.Model.PipeMachine
import OsSolutions.Verification.Pipe.Buffer

/-! # The steps of the pipe machine, branch by branch -/

namespace OsSolutions.Pipes

variable {s s' : State} {a : Act}

namespace State

variable {p q : Fin NPROC}

/-- The bytes that went into the pipe. -/
def bytesIn (s : State) : List UInt8 := s.accepted.map Prod.snd

/-- The bytes that came out of the pipe. -/
def bytesOut (s : State) : List UInt8 := s.delivered.map Prod.snd

/-- The bytes that went into the pipe from one process. -/
def sent (s : State) (p : Fin NPROC) : List UInt8 :=
  (s.accepted.filter fun x => x.1 = p).map Prod.snd

def Filled (s : State) : Prop := s.pipe.Filled s.bytesIn s.delivered.length

@[simp] theorem goto_self (s : State) (p : Fin NPROC) (c : Pc) : (s.goto p c).pc p = c := by
  simp [goto]

theorem goto_of_ne {c : Pc} (h : q ≠ p) : (s.goto p c).pc q = s.pc q := by
  simp [goto, h]

theorem bytesIn_accept (s : State) (p : Fin NPROC) (bytes : List UInt8) :
    (s.accept p bytes).bytesIn = s.bytesIn ++ bytes := by
  simp [bytesIn, accept, Function.comp_def]

theorem bytesOut_deliver (s : State) (p : Fin NPROC) (bytes : List UInt8) :
    (s.deliver p bytes).bytesOut = s.bytesOut ++ bytes := by
  simp [bytesOut, deliver, Function.comp_def]

theorem sent_accept_self (s : State) (p : Fin NPROC) (bytes : List UInt8) :
    (s.accept p bytes).sent p = s.sent p ++ bytes := by
  simp [sent, accept, List.filter_append, List.filter_map, Function.comp_def]

theorem sent_accept_of_ne (bytes : List UInt8) (h : q ≠ p) :
    (s.accept p bytes).sent q = s.sent q := by
  simp [sent, accept, List.filter_append, List.filter_map, Function.comp_def, Ne.symm h]

/-! ## Being awake makes no difference to a call -/

@[simp] theorem wakeReaders_rest (s : State) (p : Fin NPROC) :
    (s.wakeReaders.pc p).rest = (s.pc p).rest := by
  simp only [wakeReaders]
  split
  · rename_i h
    rw [h]
    rfl
  · rfl

@[simp] theorem wakeWriters_rest (s : State) (p : Fin NPROC) :
    (s.wakeWriters.pc p).rest = (s.pc p).rest := by
  simp only [wakeWriters]
  split
  · rename_i h
    rw [h]
    rfl
  · rfl

theorem wakeReaders_writes : (s.wakeReaders.pc p).Writes ↔ (s.pc p).Writes := by
  simp only [wakeReaders]
  split
  · rename_i h
    rw [h]
    exact Iff.rfl
  · exact Iff.rfl

theorem wakeWriters_writes : (s.wakeWriters.pc p).Writes ↔ (s.pc p).Writes := by
  simp only [wakeWriters]
  split
  · rename_i h
    rw [h]
    exact Iff.rfl
  · exact Iff.rfl

theorem wakeReaders_reads : (s.wakeReaders.pc p).Reads ↔ (s.pc p).Reads := by
  simp only [wakeReaders]
  split
  · rename_i h
    rw [h]
    exact Iff.rfl
  · exact Iff.rfl

theorem wakeWriters_reads : (s.wakeWriters.pc p).Reads ↔ (s.pc p).Reads := by
  simp only [wakeWriters]
  split
  · rename_i h
    rw [h]
    exact Iff.rfl
  · exact Iff.rfl

/-- The process has been asleep or nothing has happened. -/
theorem wake_cases (s : State) (p : Fin NPROC) :
    (∃ n, s.pc p = .readAsleep n ∧ s.wake p = s.goto p (.read n)) ∨
      (∃ rest, s.pc p = .writeAsleep rest ∧ s.wake p = s.goto p (.write rest)) ∨
      (∀ n, s.pc p ≠ .readAsleep n) ∧ (∀ rest, s.pc p ≠ .writeAsleep rest) ∧
        s.wake p = s := by
  cases hpc : s.pc p with
  | readAsleep n => exact .inl ⟨n, rfl, by simp [wake, hpc]⟩
  | writeAsleep rest => exact .inr (.inl ⟨rest, rfl, by simp [wake, hpc]⟩)
  | _ => exact .inr (.inr ⟨by simp, by simp, by simp [wake, hpc]⟩)

end State

/-! ## Inversion -/

/-- The ways through `step`, with what the sections of the calls have done to the pipe. -/
inductive Move (s : State) : Act → State → Prop
  | callWrite {p addr} : s.pc p = .outside → s.pipe.writeopen = true →
      Move s (.callWrite p addr) ((s.pass p addr).goto p (.write addr))
  | callRead {p n} : s.pc p = .outside → s.pipe.readopen = true →
      Move s (.callRead p n) (s.goto p (.read n))
  | wrote {p addr bytes q} : s.pc p = .write addr →
      WriteSpec (s.killed p) addr s.pipe s.bytesIn s.delivered.length bytes q .returned →
      Move s (.run p) (((s.withPipe q).accept p bytes).wakeReaders.goto p .outside)
  | gaveUp {p addr bytes q rest} : s.pc p = .write addr →
      WriteSpec (s.killed p) addr s.pipe s.bytesIn s.delivered.length bytes q
        (.failed rest) →
      Move s (.run p) ((((s.withPipe q).accept p bytes).fail p).goto p .outside)
  | writeSleeps {p addr bytes q rest} : s.pc p = .write addr →
      WriteSpec (s.killed p) addr s.pipe s.bytesIn s.delivered.length bytes q
        (.asleep rest) →
      Move s (.run p) (((s.withPipe q).accept p bytes).wakeReaders.goto p (.writeAsleep rest))
  | read {p n q bytes} : s.pc p = .read n →
      CopySpec n s.pipe s.bytesIn s.delivered.length q bytes →
      (s.delivered.length < s.bytesIn.length ∨ s.pipe.writeopen = false) →
      (n = 0 ∨ bytes ≠ []) →
      Move s (.run p) ((((s.withPipe q).deliver p bytes).wakeWriters).goto p .outside)
  | readEnd {p n q} : s.pc p = .read n →
      CopySpec n s.pipe s.bytesIn s.delivered.length q [] →
      (s.delivered.length < s.bytesIn.length ∨ s.pipe.writeopen = false) → 0 < n →
      Move s (.run p) (((((s.withPipe q).deliver p []).wakeWriters).goto p .outside).atEnd p)
  | readFails {p n} : s.pc p = .read n → s.killed p = true →
      Move s (.run p) (s.goto p .outside)
  | readSleeps {p n} : s.pc p = .read n → s.delivered.length = s.bytesIn.length →
      s.pipe.writeopen = true → Move s (.run p) (s.goto p (.readAsleep n))
  | kill {p} : Move s (.kill p) ((s.setKilled p).wake p)
  | reap {p} : s.pc p = .outside → Move s (.reap p) (s.clearKilled p)
  | closeWrite : s.pipe.writeopen = true → (∀ p, ¬ (s.pc p).Writes) →
      Move s (.close true) (s.withPipe { s.pipe with writeopen := false }).wakeReaders
  | closeRead : s.pipe.readopen = true → (∀ p, ¬ (s.pc p).Reads) →
      Move s (.close false) (s.withPipe { s.pipe with readopen := false }).wakeWriters

theorem runWrite_cases {p : Fin NPROC} (h : s.Filled) {addr : List UInt8}
    (hpc : s.pc p = .write addr) :
    Move s (.run p) (s.runWrite p addr) := by
  obtain ⟨bytes, hspec⟩ := pipewrite_spec (s.killed p) addr h
  have htake : addr.take (addr.length - (pipewrite (s.killed p) addr s.pipe).2.rest.length) =
      bytes := by
    have hsplit := hspec.split
    generalize (pipewrite (s.killed p) addr s.pipe).2.rest = rest at hsplit ⊢
    subst hsplit
    simp
  unfold State.runWrite
  simp only [htake]
  cases hend : (pipewrite (s.killed p) addr s.pipe).2 with
  | returned =>
      rw [hend] at hspec
      exact .wrote hpc hspec
  | failed rest =>
      rw [hend] at hspec
      exact .gaveUp hpc hspec
  | asleep rest =>
      rw [hend] at hspec
      exact .writeSleeps hpc hspec

theorem runRead_cases {p : Fin NPROC} (h : s.Filled) {n : ℕ} (hpc : s.pc p = .read n) :
    Move s (.run p) (s.runRead p n) := by
  have hspec := piperead_spec (s.killed p) n h
  unfold State.runRead
  generalize piperead (s.killed p) n s.pipe = r at hspec ⊢
  obtain ⟨q, e⟩ := r
  cases hspec with
  | @returned q bytes hcopy hopen =>
      by_cases hend : n > 0 ∧ bytes = []
      · obtain ⟨hn, rfl⟩ := hend
        simp only [hn, true_and, if_true]
        exact .readEnd hpc hcopy hopen hn
      · simp only [hend, if_false]
        refine .read hpc hcopy hopen ?_
        rw [not_and_or] at hend
        exact hend.imp (by omega) id
  | failed _ hkilled => exact .readFails hpc hkilled
  | asleep hall hopen _ => exact .readSleeps hpc hall hopen

theorem step_cases (h : s.Filled) (hs : step s a = some s') : Move s a s' := by
  cases a with
  | callWrite p addr =>
      obtain ⟨hpc, heq⟩ := Option.ite_none_right_eq_some.mp hs
      obtain rfl := Option.some.inj heq
      exact .callWrite hpc.1 hpc.2
  | callRead p n =>
      obtain ⟨hpc, heq⟩ := Option.ite_none_right_eq_some.mp hs
      obtain rfl := Option.some.inj heq
      exact .callRead hpc.1 hpc.2
  | run p =>
      cases hpc : s.pc p with
      | write addr =>
          simp only [step, hpc, Option.some.injEq] at hs
          subst hs
          exact runWrite_cases h hpc
      | read n =>
          simp only [step, hpc, Option.some.injEq] at hs
          subst hs
          exact runRead_cases h hpc
      | _ => simp [step, hpc] at hs
  | kill p =>
      obtain rfl := Option.some.inj hs
      exact .kill
  | reap p =>
      obtain ⟨hpc, heq⟩ := Option.ite_none_right_eq_some.mp hs
      obtain rfl := Option.some.inj heq
      exact .reap hpc
  | close writable =>
      cases writable with
      | true =>
          obtain ⟨hopen, heq⟩ := Option.ite_none_right_eq_some.mp hs
          obtain rfl := Option.some.inj heq
          exact .closeWrite hopen.1 hopen.2
      | false =>
          obtain ⟨hopen, heq⟩ := Option.ite_none_right_eq_some.mp hs
          obtain rfl := Option.some.inj heq
          exact .closeRead hopen.1 hopen.2

end OsSolutions.Pipes
