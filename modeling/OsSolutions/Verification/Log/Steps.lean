import OsSolutions.Model.LogMachine
import OsSolutions.Verification.Log.Blocks

/-! # The steps of the log machine, branch by branch -/

namespace OsSolutions

namespace Log

variable {log log' : Log} {area : LogArea} {b : BlockNo}

/-- `begin_op` goes on when nobody commits and the log has room for one more operation. -/
theorem beginOp_eq_some : log.beginOp = some log' ↔
    log.committing = false ∧
      (log.lh.length : ℤ) + (log.outstanding + 1) * MAXOPBLOCKS ≤ LOGSIZE ∧
      log' = { log with outstanding := log.outstanding + 1 } := by
  unfold beginOp
  by_cases hc : log.committing = true
  · simp [hc]
  · rw [if_neg hc]
    split
    · rename_i hroom
      simp only [reduceCtorEq, false_iff, not_and]
      intro _ hle
      omega
    · rename_i hroom
      rw [Option.some.injEq, eq_comm]
      exact ⟨fun h => ⟨by simpa using hc, by omega, h⟩, fun h => h.2.2⟩

theorem beginOp_eq_none : log.beginOp = none ↔
    log.committing = true ∨
      (LOGSIZE : ℤ) < log.lh.length + (log.outstanding + 1) * MAXOPBLOCKS := by
  unfold beginOp
  by_cases hc : log.committing = true
  · simp [hc]
  · rw [if_neg hc]
    split
    · rename_i hroom
      exact ⟨fun _ => .inr hroom, fun _ => rfl⟩
    · rename_i hroom
      simp only [reduceCtorEq, false_iff, not_or]
      exact ⟨hc, hroom⟩

/-- The blocks of the transaction after a `log_write`. -/
def record (b : BlockNo) (lh : List BlockNo) : List BlockNo := if b ∈ lh then lh else lh ++ [b]

@[simp] theorem mem_record {b c : BlockNo} {lh : List BlockNo} :
    c ∈ record b lh ↔ c = b ∨ c ∈ lh := by
  unfold record
  split
  · rename_i h
    exact ⟨.inr, fun hc => hc.elim (fun heq => heq ▸ h) id⟩
  · simp [or_comm]

theorem length_record_le (b : BlockNo) (lh : List BlockNo) :
    (record b lh).length ≤ lh.length + 1 := by
  unfold record
  split <;> simp

/-- A block that is logged already needs no room. -/
theorem length_record_le_of_room {b : BlockNo} {lh : List BlockNo} {n : ℕ} (hle : lh.length ≤ n)
    (hroom : b ∈ lh ∨ lh.length < n) : (record b lh).length ≤ n := by
  unfold record
  split
  · exact hle
  · rename_i hnew
    rw [List.length_append]
    exact hroom.resolve_left hnew

theorem length_le_record (b : BlockNo) (lh : List BlockNo) : lh.length ≤ (record b lh).length := by
  unfold record
  split <;> simp

theorem logWriteTests_eq_true : log.logWriteTests area = true ↔
    (log.lh.length < LOGSIZE ∧ log.lh.length < area.size - 1) ∧ 1 ≤ log.outstanding := by
  unfold logWriteTests
  split
  · simp only [Bool.false_eq_true, false_iff]
    omega
  · split
    · simp only [Bool.false_eq_true, false_iff]
      omega
    · simp only [true_iff]
      omega

theorem logWrite_eq_none : log.logWrite b = none ↔ LOGSIZE ≤ log.lh.idxOf b := by
  unfold logWrite
  dsimp only
  split
  · rename_i h
    exact ⟨fun _ => h, fun _ => rfl⟩
  · rename_i h
    split
    · exact iff_of_false (by simp) h
    · exact iff_of_false (by simp) h

theorem logWrite_eq_some (h : log.logWrite b = some log') :
    log' = { log with lh := record b log.lh } := by
  have hset : log.lh.set (log.lh.idxOf b) b = log.lh := by
    apply List.ext_getElem (by simp)
    intro i hi hi'
    rw [List.getElem_set]
    split
    · rename_i heq
      subst heq
      exact (List.getElem_idxOf hi').symm
    · rfl
  have hmem : log.lh.idxOf b = log.lh.length ↔ b ∉ log.lh := by
    rw [List.idxOf_eq_length_iff]
  unfold logWrite at h
  dsimp only at h
  split at h
  · cases h
  · by_cases hb : b ∈ log.lh
    · simp only [hmem, hb, not_true_eq_false, if_false, hset, Option.some.injEq] at h
      rw [record, if_pos hb, h]
    · simp only [hmem, hb, not_false_eq_true, if_true, Option.some.injEq] at h
      rw [record, if_neg hb, h]

/-- There is room for a block that is logged already, or if the log is not full. -/
theorem logWrite_of_room (hle : log.lh.length ≤ LOGSIZE)
    (hroom : b ∈ log.lh ∨ log.lh.length < LOGSIZE) :
    log.logWrite b = some { log with lh := record b log.lh } := by
  cases h : log.logWrite b with
  | some log' => rw [logWrite_eq_some h]
  | none =>
      have hfull := logWrite_eq_none.mp h
      rcases hroom with hmem | hlt
      · have := List.idxOf_lt_length_iff.mpr hmem
        omega
      · have := List.idxOf_le_length (a := b) (l := log.lh)
        omega

theorem endOp_eq_some {commit : Bool} : log.endOp = some (log', commit) ↔
    log.committing = false ∧ commit = decide (log.outstanding = 1) ∧
      log' = { log with outstanding := log.outstanding - 1, committing := commit } := by
  obtain ⟨outstanding, committing, lh⟩ := log
  have hone : outstanding - 1 = 0 ↔ outstanding = 1 := by omega
  cases committing with
  | true => simp [endOp]
  | false =>
      by_cases ho : outstanding = 1
      · subst ho
        simp only [endOp, Int.sub_self, Bool.false_eq_true, if_false, if_true, Option.some.injEq,
          Prod.mk.injEq, decide_true, true_and]
        constructor
        · rintro ⟨rfl, rfl⟩
          exact ⟨rfl, rfl⟩
        · rintro ⟨rfl, rfl⟩
          exact ⟨rfl, rfl⟩
      · simp only [endOp, hone, ho, Bool.false_eq_true, if_false, Option.some.injEq,
          Prod.mk.injEq, decide_false, true_and]
        constructor
        · rintro ⟨rfl, rfl⟩
          exact ⟨rfl, rfl⟩
        · rintro ⟨rfl, rfl⟩
          exact ⟨rfl, rfl⟩

end Log

namespace FsLog

variable {area : LogArea} {s s' : State}

/-- The ways through `step`. -/
inductive Move (area : LogArea) (s : State) : Act → State → Prop
  | bread {p b d x} : s.phase = .up → (s.pc p).UsesBuffers → b ∉ s.locked →
      s.drive.bread s.locked b = some (d, x) →
      Move area s (.bread p b) ((s.withDrive d).withHeld ((p, b) :: s.held))
  | breadPanic {p b} : s.phase = .up → Move area s (.bread p b) (s.inPhase .noBuffers)
  | brelse {p b} : s.phase = .up → (s.pc p).UsesBuffers →
      Move area s (.brelse p b)
        ((s.withDrive (s.drive.brelse b)).withHeld (s.held.erase (p, b)))
  | call {p} : s.phase = .up → s.pc p = .outside → s.HoldsNone p →
      Move area s (.call p) (s.goto p .beginOp)
  | enter {p} : s.phase = .up → s.pc p = .beginOp → s.log.committing = false →
      (s.log.lh.length : ℤ) + (s.log.outstanding + 1) * MAXOPBLOCKS ≤ LOGSIZE →
      Move area s (.enter p)
        ((s.withLog { s.log with outstanding := s.log.outstanding + 1 }).goto p (.inOp []))
  | sleep {p} : s.phase = .up → s.pc p = .beginOp → s.log.beginOp = none →
      Move area s (.sleep p) (s.goto p .asleep)
  | write {p b data logged} : s.phase = .up → s.pc p = .inOp logged → (p, b) ∈ s.held →
      Move area s (.write p b data)
        ((s.withDrive (s.drive.store b data)).goto p (.logging logged b))
  | writePanic {p b data logged} : s.phase = .up → s.pc p = .inOp logged →
      s.log.logWriteTests area = false →
      Move area s (.write p b data)
        ((s.withDrive (s.drive.store b data)).inPhase .panicked)
  | append {p logged b} : s.phase = .up → s.pc p = .logging logged b →
      Move area s (.append p)
        (((s.withDrive (s.drive.pin b)).withLog { s.log with lh := Log.record b s.log.lh }).goto p
          (.inOp (b :: logged)))
  | overrun {p logged b} : s.phase = .up → s.pc p = .logging logged b →
      s.log.logWrite b = none → Move area s (.append p) (s.inPhase .overrun)
  | endOp {p logged} : s.phase = .up → s.pc p = .inOp logged → s.HoldsNone p →
      s.log.committing = false → s.log.outstanding = 1 →
      Move area s (.endOp p) ((s.withLog ⟨0, true, s.log.lh⟩).goto p .commit)
  | leave {p logged} : s.phase = .up → s.pc p = .inOp logged → s.log.committing = false →
      s.log.outstanding ≠ 1 →
      Move area s (.endOp p)
        ((s.withLog { s.log with outstanding := s.log.outstanding - 1 }).wakeup.goto p .outside)
  | endPanic {p logged} : s.phase = .up → s.pc p = .inOp logged → s.log.committing = true →
      Move area s (.endOp p) (s.inPhase .panicked)
  | nothing {p} : s.phase = .up → s.pc p = .commit → s.log.lh = [] →
      Move area s (.commit p) (s.goto p .endCommit)
  | begin {p} : s.phase = .up → s.pc p = .commit → s.log.lh ≠ [] →
      Move area s (.commit p) (s.goto p (.writeLog 0))
  | writeLog {p tail b d} : s.phase = .up → s.pc p = .writeLog tail →
      s.log.lh[tail]? = some b → area.writeLog s.locked tail b s.drive = some d →
      Move area s (.commit p) ((s.withDrive d).goto p (.writeLog (tail + 1)))
  | written {p tail} : s.phase = .up → s.pc p = .writeLog tail → s.log.lh[tail]? = none →
      Move area s (.commit p) (s.goto p .writeHead)
  | writeHead {p d} : s.phase = .up → s.pc p = .writeHead →
      area.writeHead s.locked s.log.lh s.drive = some d →
      Move area s (.commit p) ((s.withDrive d).goto p (.installTrans 0))
  | install {p tail b d} : s.phase = .up → s.pc p = .installTrans tail →
      s.log.lh[tail]? = some b → area.installTrans s.locked tail b s.drive = some d →
      Move area s (.commit p) ((s.withDrive d).goto p (.installTrans (tail + 1)))
  | installed {p tail} : s.phase = .up → s.pc p = .installTrans tail → s.log.lh[tail]? = none →
      Move area s (.commit p) ((s.withLog { s.log with lh := [] }).goto p .eraseHead)
  | eraseHead {p d} : s.phase = .up → s.pc p = .eraseHead →
      area.writeHead s.locked s.log.lh s.drive = some d →
      Move area s (.commit p) ((s.withDrive d).goto p .endCommit)
  | endCommit {p} : s.phase = .up → s.pc p = .endCommit →
      Move area s (.commit p) ((s.withLog s.log.endCommit).wakeup.goto p .outside)
  | commitPanic {p} : s.phase = .up → Move area s (.commit p) (s.inPhase .noBuffers)
  | readHead {d lh} : s.phase = .readHead → area.readHead s.locked s.drive = some (d, some lh) →
      Move area s .recover
        (((s.withDrive d).withLog { s.log with lh := lh }).inPhase (.installTrans 0))
  | reinstall {tail b d} : s.phase = .installTrans tail → s.log.lh[tail]? = some b →
      area.installTrans s.locked tail b s.drive = some d →
      Move area s .recover ((s.withDrive d).inPhase (.installTrans (tail + 1)))
  | reinstalled {tail} : s.phase = .installTrans tail → s.log.lh[tail]? = none →
      Move area s .recover ((s.withLog { s.log with lh := [] }).inPhase .eraseHead)
  | erase {d} : s.phase = .eraseHead → area.writeHead s.locked s.log.lh s.drive = some d →
      Move area s .recover ((s.withDrive d).inPhase .up)
  | recoverPanic : Move area s .recover (s.inPhase .noBuffers)
  | crash : s.phase ≠ .overrun → Move area s .crash (boot s.drive.disk)

theorem pass_cases {bs : List BlockNo} {d : Option Drive} {next : State → State}
    (h : s.pass bs d next = some s') :
    (∃ d', d = some d' ∧ s' = next (s.withDrive d')) ∨ s' = s.inPhase .noBuffers := by
  obtain ⟨_, h⟩ := Option.ite_none_right_eq_some.mp h
  cases d with
  | some d' => exact .inl ⟨d', rfl, (Option.some.inj h).symm⟩
  | none => exact .inr (Option.some.inj h).symm

theorem commitStep_cases {p : Fin NPROC} (hup : s.phase = .up) (h : s.commitStep area p = some s') :
    Move area s (.commit p) s' := by
  unfold State.commitStep at h
  split at h
  · rename_i hpc
    obtain rfl := Option.some.inj h
    by_cases hlh : s.log.lh = []
    · simpa [hlh] using Move.nothing hup hpc hlh
    · simpa [List.length_pos_iff.mpr hlh] using Move.begin hup hpc hlh
  · rename_i tail hpc
    split at h
    · rename_i b hb
      rcases pass_cases h with ⟨d, hd, rfl⟩ | rfl
      · exact .writeLog hup hpc hb hd
      · exact .commitPanic hup
    · rename_i hb
      obtain rfl := Option.some.inj h
      exact .written hup hpc hb
  · rename_i hpc
    rcases pass_cases h with ⟨d, hd, rfl⟩ | rfl
    · exact .writeHead hup hpc hd
    · exact .commitPanic hup
  · rename_i tail hpc
    split at h
    · rename_i b hb
      rcases pass_cases h with ⟨d, hd, rfl⟩ | rfl
      · exact .install hup hpc hb hd
      · exact .commitPanic hup
    · rename_i hb
      obtain rfl := Option.some.inj h
      exact .installed hup hpc hb
  · rename_i hpc
    rcases pass_cases h with ⟨d, hd, rfl⟩ | rfl
    · exact .eraseHead hup hpc hd
    · exact .commitPanic hup
  · rename_i hpc
    obtain rfl := Option.some.inj h
    exact .endCommit hup hpc
  · cases h

theorem recoverStep_cases (h : s.recoverStep area = some s') : Move area s .recover s' := by
  unfold State.recoverStep at h
  split at h
  · rename_i hph
    split at h
    · rename_i d lh hread
      obtain rfl := Option.some.inj h
      exact .readHead hph hread
    · cases h
    · obtain rfl := Option.some.inj h
      exact .recoverPanic
  · rename_i tail hph
    split at h
    · rename_i b hb
      rcases pass_cases h with ⟨d, hd, rfl⟩ | rfl
      · exact .reinstall hph hb hd
      · exact .recoverPanic
    · rename_i hb
      obtain rfl := Option.some.inj h
      exact .reinstalled hph hb
  · rename_i hph
    rcases pass_cases h with ⟨d, hd, rfl⟩ | rfl
    · exact .erase hph hd
    · exact .recoverPanic
  · cases h

theorem endOp_cases {p : Fin NPROC} (hup : s.phase = .up) {logged : List BlockNo}
    (hpc : s.pc p = .inOp logged)
    (h : s.procStep area (.endOp p) = some s') : Move area s (.endOp p) s' := by
  simp only [State.procStep, hpc] at h
  obtain ⟨hnone, h⟩ := Option.ite_none_right_eq_some.mp h
  split at h
  · rename_i log hend
    obtain rfl := Option.some.inj h
    obtain ⟨hc, ho, rfl⟩ := Log.endOp_eq_some.mp hend
    have hone : s.log.outstanding = 1 := by simpa using ho.symm
    have hmove : Move area s (.endOp p) _ := .endOp hup hpc hnone hc hone
    rw [hone]
    exact hmove
  · rename_i log hend
    obtain rfl := Option.some.inj h
    obtain ⟨hc, ho, rfl⟩ := Log.endOp_eq_some.mp hend
    have hmove : Move area s (.endOp p) _ := .leave hup hpc hc (by simpa using ho.symm)
    simp only [hc] at hmove
    exact hmove
  · rename_i hend
    obtain rfl := Option.some.inj h
    refine .endPanic hup hpc ?_
    by_contra hc
    obtain ⟨log, hsome⟩ : ∃ log, s.log.endOp = some log :=
      ⟨_, Log.endOp_eq_some.mpr ⟨by simpa using hc, rfl, rfl⟩⟩
    rw [hsome] at hend
    cases hend

theorem write_cases {p : Fin NPROC} (hup : s.phase = .up) {b : BlockNo} {data : Block}
    {logged : List BlockNo} (hpc : s.pc p = .inOp logged)
    (h : s.procStep area (.write p b data) = some s') : Move area s (.write p b data) s' := by
  simp only [State.procStep, hpc] at h
  obtain ⟨hheld, h⟩ := Option.ite_none_right_eq_some.mp h
  split at h
  · obtain rfl := Option.some.inj h
    exact .write hup hpc hheld
  · rename_i htests
    obtain rfl := Option.some.inj h
    exact .writePanic hup hpc (Bool.eq_false_iff.mpr htests)

theorem procStep_cases (hup : s.phase = .up) {a : Act} (h : s.procStep area a = some s') :
    Move area s a s' := by
  cases a with
  | bread p b =>
      obtain ⟨⟨huses, hfree⟩, h⟩ := Option.ite_none_right_eq_some.mp h
      split at h
      · rename_i d x hd
        obtain rfl := Option.some.inj h
        exact .bread hup huses hfree hd
      · obtain rfl := Option.some.inj h
        exact .breadPanic hup
  | brelse p b =>
      obtain ⟨⟨huses, _⟩, h⟩ := Option.ite_none_right_eq_some.mp h
      obtain rfl := Option.some.inj h
      exact .brelse hup huses
  | call p =>
      obtain ⟨⟨hpc, hnone⟩, hs⟩ := Option.ite_none_right_eq_some.mp h
      obtain rfl := Option.some.inj hs
      exact .call hup hpc hnone
  | enter p =>
      obtain ⟨hpc, hlog⟩ := Option.ite_none_right_eq_some.mp h
      obtain ⟨log, hbegin, rfl⟩ := Option.map_eq_some_iff.mp hlog
      obtain ⟨hc, hroom, rfl⟩ := Log.beginOp_eq_some.mp hbegin
      exact .enter hup hpc hc hroom
  | sleep p =>
      obtain ⟨hpc, hs⟩ := Option.ite_none_right_eq_some.mp h
      obtain rfl := Option.some.inj hs
      exact .sleep hup hpc.1 hpc.2
  | write p b data =>
      cases hpc : s.pc p with
      | inOp logged => exact write_cases hup hpc h
      | _ => simp [State.procStep, hpc] at h
  | append p =>
      simp only [State.procStep] at h
      split at h
      · rename_i logged b hpc
        split at h
        · rename_i log hlog
          obtain rfl := Option.some.inj h
          rw [Log.logWrite_eq_some hlog]
          exact .append hup hpc
        · rename_i hlog
          obtain rfl := Option.some.inj h
          exact .overrun hup hpc hlog
      · cases h
  | endOp p =>
      cases hpc : s.pc p with
      | inOp logged => exact endOp_cases hup hpc h
      | _ => simp [State.procStep, hpc] at h
  | commit p => exact commitStep_cases hup h
  | recover => cases h
  | crash => cases h

theorem step_cases {a : Act} (h : step area s a = some s') : Move area s a s' := by
  have hproc : (if s.phase = .up then s.procStep area a else none) = some s' →
      Move area s a s' := by
    intro hs
    obtain ⟨hup, hproc⟩ := Option.ite_none_right_eq_some.mp hs
    exact procStep_cases hup hproc
  cases a with
  | crash =>
      obtain ⟨hph, hs⟩ := Option.ite_none_left_eq_some.mp h
      obtain rfl := Option.some.inj hs
      exact .crash hph
  | recover => exact recoverStep_cases h
  | _ => exact hproc h

/-! ## Steps that are possible -/

variable (area) {p : Fin NPROC} {b : BlockNo} {logged : List BlockNo}

theorem step_call (hup : s.phase = .up) (hpc : s.pc p = .outside) (hnone : s.HoldsNone p) :
    step area s (.call p) = some (s.goto p .beginOp) := by
  change (if s.phase = .up then s.procStep area (.call p) else none) = _
  rw [if_pos hup]
  exact if_pos ⟨hpc, hnone⟩

theorem step_enter {log : Log} (hup : s.phase = .up) (hpc : s.pc p = .beginOp)
    (hbegin : s.log.beginOp = some log) :
    step area s (.enter p) = some ((s.withLog log).goto p (.inOp [])) := by
  change (if s.phase = .up then s.procStep area (.enter p) else none) = _
  rw [if_pos hup]
  simp only [State.procStep, hpc, hbegin, if_true, Option.map_some]

theorem step_bread {d : Drive} {x : Block} (hup : s.phase = .up) (huses : (s.pc p).UsesBuffers)
    (hfree : b ∉ s.locked) (hd : s.drive.bread s.locked b = some (d, x)) :
    step area s (.bread p b) = some ((s.withDrive d).withHeld ((p, b) :: s.held)) := by
  change (if s.phase = .up then s.procStep area (.bread p b) else none) = _
  rw [if_pos hup]
  simp only [State.procStep, huses, hfree, hd, not_false_eq_true, and_self, if_true]

theorem step_brelse (hup : s.phase = .up) (huses : (s.pc p).UsesBuffers) (hheld : (p, b) ∈ s.held) :
    step area s (.brelse p b) =
      some ((s.withDrive (s.drive.brelse b)).withHeld (s.held.erase (p, b))) := by
  change (if s.phase = .up then s.procStep area (.brelse p b) else none) = _
  rw [if_pos hup]
  simp only [State.procStep, huses, hheld, and_self, if_true]

theorem step_write (hup : s.phase = .up) (hpc : s.pc p = .inOp logged) (hheld : (p, b) ∈ s.held)
    (data : Block) :
    step area s (.write p b data) = some (if s.log.logWriteTests area then
      (s.withDrive (s.drive.store b data)).goto p (.logging logged b)
    else (s.withDrive (s.drive.store b data)).inPhase .panicked) := by
  change (if s.phase = .up then s.procStep area (.write p b data) else none) = _
  rw [if_pos hup]
  simp only [State.procStep, hpc, hheld, if_true]
  exact (apply_ite some _ _ _).symm

theorem step_append (hup : s.phase = .up) (hpc : s.pc p = .logging logged b)
    (hle : s.log.lh.length ≤ LOGSIZE) (hroom : b ∈ s.log.lh ∨ s.log.lh.length < LOGSIZE) :
    step area s (.append p) = some (((s.withDrive (s.drive.pin b)).withLog
      { s.log with lh := Log.record b s.log.lh }).goto p (.inOp (b :: logged))) := by
  change (if s.phase = .up then s.procStep area (.append p) else none) = _
  rw [if_pos hup]
  simp only [State.procStep, hpc, Log.logWrite_of_room hle hroom]

/-- The last operation commits. -/
theorem step_endOp (hup : s.phase = .up) (hpc : s.pc p = .inOp logged) (hnone : s.HoldsNone p)
    (hfree : s.log.committing = false) (hone : s.log.outstanding = 1) :
    step area s (.endOp p) = some ((s.withLog ⟨0, true, s.log.lh⟩).goto p .commit) := by
  have hend : s.log.endOp = some (⟨0, true, s.log.lh⟩, true) :=
    Log.endOp_eq_some.mpr ⟨hfree, by simp [hone], by rw [hone, Int.sub_self]⟩
  change (if s.phase = .up then s.procStep area (.endOp p) else none) = _
  rw [if_pos hup]
  simp only [State.procStep, hpc, hnone, hend, if_true]

theorem step_leave (hup : s.phase = .up) (hpc : s.pc p = .inOp logged) (hnone : s.HoldsNone p)
    (hfree : s.log.committing = false) (hone : s.log.outstanding ≠ 1) :
    step area s (.endOp p) =
      some ((s.withLog { s.log with outstanding := s.log.outstanding - 1 }).wakeup.goto p
        .outside) := by
  have hend : s.log.endOp = some ({ s.log with outstanding := s.log.outstanding - 1 }, false) :=
    Log.endOp_eq_some.mpr ⟨hfree, by simp [hone], by simp [hfree]⟩
  change (if s.phase = .up then s.procStep area (.endOp p) else none) = _
  rw [if_pos hup]
  simp only [State.procStep, hpc, hnone, hend, if_true]

end FsLog

end OsSolutions
