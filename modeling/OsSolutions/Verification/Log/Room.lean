import OsSolutions.Verification.Log.Durability

/-! # Room in the log

`begin_op` keeps `MAXOPBLOCKS` blocks for every operation. Since `log_write` does not use the
block behind the header, a log of `LOGSIZE` blocks is too small for what `begin_op` promises. -/

namespace OsSolutions.FsLog

open Transition

variable {area : LogArea} {s s' : State} {a : Act} {p : Fin NPROC} {disk : BlockNo → Block}

/-- Operations leave the log alone and call `log_write` at most `MAXOPBLOCKS` times. -/
def Limited (area : LogArea) (s : State) : Act → Prop
  | .write p b _ =>
      ¬ area.Holds b ∧ ∀ logged, s.pc p = .inOp logged → logged.length < MAXOPBLOCKS
  | _ => True

/-- How often the operation may still add a block to the log. -/
def Pc.room : Pc → ℕ
  | .inOp logged | .logging logged _ => MAXOPBLOCKS - logged.length
  | _ => 0

def State.room (s : State) : ℕ := tally fun p => (s.pc p).room

theorem room_goto (s : State) (p : Fin NPROC) (c : Pc) :
    (s.goto p c).room + (s.pc p).room = s.room + c.room := by
  have htally := tally_of_eq_off (f := fun q => (s.pc q).room)
    (g := fun q => ((s.goto p c).pc q).room) p fun q hq => by rw [State.goto_of_ne hq]
  simp only [State.goto_self] at htally
  exact htally

theorem room_wakeup (s : State) : s.wakeup.room = s.room := by
  apply tally_congr
  intro p
  simp only [State.wakeup]
  split
  · rename_i h
    simp [h, Pc.room]
  · rfl

theorem room_le_ops (s : State) : s.room ≤ MAXOPBLOCKS * s.ops := by
  apply tally_le_mul
  intro p
  cases hpc : s.pc p with
  | inOp | logging => simp [Pc.room, Pc.Active]
  | _ => simp [Pc.room]

theorem room_eq_zero (h : ∀ p, s.pc p = .outside) : s.room = 0 :=
  tally_eq_zero_iff.mpr fun p => by rw [h p]; rfl

/-- There is room for the blocks in the log and for those that the operations may still add. -/
structure Reserved (s : State) : Prop where
  room : s.log.lh.length + s.room ≤ LOGSIZE
  logging : ∀ p logged b, s.pc p = .logging logged b → logged.length < MAXOPBLOCKS

theorem length_getHead {b : Block} {lh : List BlockNo} (h : getHead b = some lh) :
    lh.length ≤ LOGSIZE := by
  unfold getHead at h
  obtain ⟨hle, hlh⟩ := Option.ite_none_right_eq_some.mp h
  obtain rfl := Option.some.inj hlh
  rw [List.length_map, List.length_range]
  omega

namespace Reserved

theorem boot (disk : BlockNo → Block) : Reserved (boot disk) := by
  refine ⟨?_, by simp [FsLog.boot]⟩
  change 0 + (FsLog.boot disk).room ≤ LOGSIZE
  rw [room_eq_zero fun _ => rfl]
  exact Nat.zero_le _

/-- A process has gone on, and keeps no more room than before for itself and for what it has
logged. -/
theorem goto (h : Reserved s) {c : Pc} (d : Drive) (log : Log)
    (hroom : log.lh.length + c.room ≤ s.log.lh.length + (s.pc p).room)
    (hlogging : ∀ logged b, c = .logging logged b → logged.length < MAXOPBLOCKS) :
    Reserved (((s.withDrive d).withLog log).goto p c) := by
  have hold := h.room
  have hrooms : (((s.withDrive d).withLog log).goto p c).room + (s.pc p).room = s.room + c.room :=
    room_goto _ p c
  refine ⟨?_, fun q logged b hq => ?_⟩
  · change log.lh.length + _ ≤ _
    omega
  · by_cases hqp : q = p
    · subst hqp
      rw [State.goto_self] at hq
      exact hlogging logged b hq
    · rw [State.goto_of_ne hqp] at hq
      exact h.logging q logged b hq

theorem wakeup (h : Reserved s) : Reserved s.wakeup := by
  refine ⟨?_, fun p logged b hp => ?_⟩
  · change s.log.lh.length + s.wakeup.room ≤ LOGSIZE
    rw [room_wakeup]
    exact h.room
  · by_cases hasleep : s.pc p = .asleep
    · simp [State.wakeup, hasleep] at hp
    · rw [State.wakeup_of_ne hasleep] at hp
      exact h.logging p logged b hp

/-- There is room for a call of `log_write` that has made its tests. -/
theorem length_lt (h : Reserved s) {logged : List BlockNo} {b : BlockNo}
    (hp : s.pc p = .logging logged b) : s.log.lh.length < LOGSIZE := by
  have hroom : (s.pc p).room ≤ s.room := le_tally (fun p => (s.pc p).room) p
  have hlt := h.logging p logged b hp
  have hold := h.room
  rw [hp] at hroom
  simp only [Pc.room] at hroom
  omega

theorem step (h : Reserved s) (hctl : Control s) (hok : Limited area s a)
    (hs : FsLog.step area s a = some s') : Reserved s' := by
  have hmax : MAXOPBLOCKS = 10 := rfl
  cases step_cases hs with
  | bread | brelse | breadPanic | writePanic | overrun | endPanic | commitPanic | recoverPanic =>
      exact ⟨h.room, h.logging⟩
  | call _ hp | sleep _ hp | nothing _ hp | begin _ hp | written _ hp =>
      exact h.goto s.drive s.log (by rw [hp]; exact Nat.le_refl _) (by simp)
  | writeLog _ hp | writeHead _ hp | install _ hp | eraseHead _ hp =>
      exact h.goto _ s.log (by rw [hp]; exact Nat.le_refl _) (by simp)
  | endOp _ hp =>
      refine h.goto s.drive _ ?_ (by simp)
      rw [hp]
      exact Nat.le_add_right _ _
  | leave _ hp | endCommit _ hp =>
      refine goto (s := (s.withLog _).wakeup) (wakeup ⟨h.room, h.logging⟩) s.drive _ ?_ (by simp)
      exact Nat.le_add_right _ _
  | @enter p hup hp hfree hroom =>
      have hrooms : ((s.withLog { s.log with outstanding := s.log.outstanding + 1 }).goto p
          (.inOp [])).room + (s.pc p).room = s.room + MAXOPBLOCKS := room_goto _ p (.inOp [])
      have hops := room_le_ops s
      have hout := hctl.outstanding
      rw [hmax] at hroom hrooms hops
      refine ⟨?_, fun q logged b hq => ?_⟩
      · change s.log.lh.length + _ ≤ _
        omega
      · by_cases hqp : q = p
        · subst hqp
          simp at hq
        · rw [State.goto_of_ne hqp] at hq
          exact h.logging q logged b hq
  | @write p b data logged hup hp =>
      refine h.goto _ s.log (by rw [hp]; exact Nat.le_refl _) ?_
      intro logged' b' heq
      obtain ⟨rfl, -⟩ := Pc.logging.inj heq
      exact hok.2 logged hp
  | @append p logged b hup hp =>
      refine h.goto _ _ ?_ (by simp)
      have hlt := h.logging p logged b hp
      have hlen := Log.length_record_le b s.log.lh
      rw [hp]
      simp only [Pc.room, List.length_cons]
      omega
  | installed _ hp =>
      refine h.goto s.drive _ ?_ (by simp)
      rw [hp]
      exact Nat.zero_le _
  | @readHead d lh hph hd =>
      have hzero := room_eq_zero (hctl.down (hph ▸ trivial))
      refine ⟨?_, h.logging⟩
      change lh.length + s.room ≤ LOGSIZE
      rw [hzero]
      obtain ⟨x, hlh⟩ := LogArea.readHead_snd hd
      exact length_getHead hlh.symm
  | reinstall | erase => exact ⟨h.room, h.logging⟩
  | reinstalled =>
      exact ⟨(Nat.add_le_add_right (Nat.zero_le _) _).trans h.room, h.logging⟩
  | crash => exact .boot _

/-- In a log of more than `LOGSIZE` blocks a step within the limits does not panic. -/
theorem no_panic (h : Reserved s) (hctl : Control s) (hsize : LOGSIZE < area.size)
    (hph : s.phase ≠ .panicked) (hok : Limited area s a) (hs : FsLog.step area s a = some s') :
    s'.phase ≠ .panicked := by
  cases step_cases hs with
  | @writePanic p b data logged hup hp htests =>
      exfalso
      have hroom : (s.pc p).room ≤ s.room := le_tally (fun p => (s.pc p).room) p
      have hlt := hok.2 logged hp
      have hold := h.room
      rw [hp] at hroom
      simp only [Pc.room] at hroom
      have hone := hctl.one_le (p := p) (hp ▸ trivial)
      have hpass : s.log.logWriteTests area = true :=
        Log.logWriteTests_eq_true.mpr ⟨⟨by omega, by omega⟩, hone⟩
      rw [htests] at hpass
      cases hpass
  | @endPanic p logged hup hp hcommit =>
      exact absurd (hp ▸ trivial : (s.pc p).Active) (hctl.not_active hcommit p)
  | readHead | reinstall | reinstalled | erase | crash | breadPanic | overrun | commitPanic
  | recoverPanic => simp [State.inPhase, FsLog.boot]
  | _ => exact hph

/-- Such a log does not become too full. -/
theorem orderly (h : Reserved s) (hsize : LOGSIZE < area.size) (hok : Limited area s a) :
    Orderly area s a := by
  cases a with
  | write p b data => exact hok.1
  | append p =>
      intro logged b hp
      have hlt := h.length_lt hp
      exact .inr ⟨hlt, by omega⟩
  | _ => trivial

end Reserved

/-- Operations that call `log_write` at most `MAXOPBLOCKS` times do not fill a log area of more
than `LOGSIZE` blocks, whatever races there are between the tests and the sections. -/
theorem orderly_of_limited (hsize : LOGSIZE < area.size) {as : List Act}
    (hm : Meets (step area) (Limited area) (boot disk) as) :
    Meets (step area) (Orderly area) (boot disk) as :=
  hm.imp (I := fun s => Control s ∧ Reserved s) ⟨.boot disk, .boot disk⟩
    (fun _ _ _ h hok hs => ⟨h.1.step hs, h.2.step h.1 hok hs⟩)
    fun _ _ h hok => h.2.orderly hsize hok

/-! ## A log that is too small -/

/-- A block behind the log. -/
def beyond (area : LogArea) (k : ℕ) : BlockNo := area.start + UInt32.ofNat (area.size + k)

theorem not_holds_beyond {k : ℕ} (hsize : area.size ≤ LOGSIZE) (hk : k < LOGSIZE) :
    ¬ area.Holds (beyond area k) := by
  have hlog : LOGSIZE = 30 := rfl
  rintro ⟨i, hi, heq⟩
  have := LogArea.offset_inj (by omega) (by omega) heq
  omega

theorem beyond_inj {i j : ℕ} (hsize : area.size ≤ LOGSIZE) (hi : i < LOGSIZE) (hj : j < LOGSIZE)
    (h : beyond area i = beyond area j) : i = j := by
  have hlog : LOGSIZE = 30 := rfl
  have := LogArea.offset_inj (by omega) (by omega) h
  omega

/-- The machine is up, nobody holds a buffer, and only blocks of the transaction are dirty. -/
structure Tidy (s : State) : Prop where
  up : s.phase = .up
  held : s.held = []
  clean : s.drive.Clean
  dirty : ∀ b, s.drive.dirty b = true → b ∈ s.log.lh

/-- The operation gets a buffer. -/
theorem Tidy.bread (area : LogArea) (h : Tidy s) (hp : (s.pc p).UsesBuffers)
    (hlen : s.log.lh.length < NBUF) (b : BlockNo) : ∃ d, s.drive.Alike d ∧
      step area s (.bread p b) = some ((s.withDrive d).withHeld [(p, b)]) := by
  have hlocked : s.locked = [] := by rw [State.locked, h.held, List.map_nil]
  have hbuf : s.log.lh.length + s.locked.length < NBUF := by
    rw [hlocked]
    exact hlen
  obtain ⟨⟨d, x⟩, hd⟩ := Option.isSome_iff_exists.mp
    (Drive.bread_isSome (b := b) s.log.lh (fun c _ hc => h.dirty c hc) hbuf)
  refine ⟨d, (Drive.bread_alike (h.clean.mono fun _ hc => hc.elim) hd).1, ?_⟩
  rw [step_bread area h.up hp (by simp [hlocked]) hd, h.held]

/-- A whole call of `log_write`, with the `bread` before it and the `brelse` after it. -/
theorem Tidy.log_write (h : Tidy s) {logged : List BlockNo} {b : BlockNo} (data : Block)
    (hp : s.pc p = .inOp logged) (htests : s.log.logWriteTests area = true)
    (hb : ¬ area.Holds b) (hlen : logged.length < MAXOPBLOCKS) :
    ∃ s', Reachable (step area) (Limited area) s s' ∧ Tidy s' ∧
      s'.log = { s.log with lh := Log.record b s.log.lh } ∧
      s'.pc = Function.update s.pc p (.inOp (b :: logged)) := by
  obtain ⟨⟨hroom, -⟩, -⟩ := Log.logWriteTests_eq_true.mp htests
  obtain ⟨d, halike, hbread⟩ := h.bread area (p := p) (hp ▸ trivial) hroom b
  generalize hs₁ : (s.withDrive d).withHeld [(p, b)] = s₁ at hbread
  have hp₁ : s₁.pc p = .inOp logged := by rw [← hs₁]; exact hp
  have hwrite : step area s₁ (.write p b data) =
      some ((s₁.withDrive (d.store b data)).goto p (.logging logged b)) := by
    subst hs₁
    rw [step_write area (s := (s.withDrive d).withHeld [(p, b)]) h.up hp
      (List.mem_singleton.mpr rfl)]
    exact congrArg some (if_pos htests)
  have hok : Limited area s₁ (.write p b data) := by
    refine ⟨hb, fun logged' hp' => ?_⟩
    obtain rfl := Pc.inOp.inj (hp₁.symm.trans hp')
    exact hlen
  generalize hs₂ : (s₁.withDrive (d.store b data)).goto p (.logging logged b) = s₂ at hwrite
  have happend : step area s₂ (.append p) = some (((s₂.withDrive ((d.store b data).pin b)).withLog
      { s.log with lh := Log.record b s.log.lh }).goto p (.inOp (b :: logged))) := by
    subst hs₂ hs₁
    exact step_append area h.up (State.goto_self _ _ _) (Nat.le_of_lt hroom) (.inr hroom)
  generalize hs₃ : ((s₂.withDrive ((d.store b data).pin b)).withLog
      { s.log with lh := Log.record b s.log.lh }).goto p (.inOp (b :: logged)) = s₃ at happend
  have hbrelse : step area s₃ (.brelse p b) =
      some ((s₃.withDrive (((d.store b data).pin b).brelse b)).withHeld []) := by
    have hup₃ : s₃.phase = .up := by
      subst hs₃ hs₂ hs₁
      exact h.up
    have hheld₃ : s₃.held = [(p, b)] := by
      subst hs₃ hs₂ hs₁
      rfl
    have hp₃ : s₃.pc p = .inOp (b :: logged) := by rw [← hs₃, State.goto_self]
    rw [step_brelse area hup₃ (by rw [hp₃]; trivial) (by simp [hheld₃]), hheld₃,
      List.erase_cons_head]
    subst hs₃
    rfl
  have hr₁ : Reachable (step area) (Limited area) s s₁ := Reachable.refl.tail (by trivial) hbread
  have hr₃ : Reachable (step area) (Limited area) s s₃ :=
    (hr₁.tail hok hwrite).tail (by trivial) happend
  refine ⟨_, hr₃.tail (by trivial) hbrelse, ⟨?_, rfl, ?_, ?_⟩, ?_, ?_⟩
  · subst hs₃ hs₂ hs₁
    exact h.up
  · have hclean : d.Clean := halike.cleanBut h.clean
    have hstored : (d.store b data).CleanBut (· = b) :=
      hclean.store (Q := (· = b)) (fun _ hc => hc.elim) rfl data
    exact (Drive.Alike.brelse _ b).cleanBut (hstored.pin fun _ hc => .inl hc)
  · subst hs₃
    intro c hc
    change ((d.store b data).pin b).dirty c = true at hc
    change c ∈ Log.record b s.log.lh
    rw [Log.mem_record]
    by_cases hcb : c = b
    · exact .inl hcb
    · rw [Drive.pin_dirty, Function.update_of_ne hcb, Drive.store_dirty, halike.dirty] at hc
      exact .inr (h.dirty c hc)
  · subst hs₃
    rfl
  · subst hs₃ hs₂ hs₁
    exact Function.update_idem _ _ _

/-- Three operations are active, and `n` blocks are logged: `MAXOPBLOCKS` by the first one,
then as many by the second one, then by the third. -/
structure Filled (area : LogArea) (n : ℕ) (s : State) : Prop extends Tidy s where
  outstanding : s.log.outstanding = 3
  lh : s.log.lh = (List.range n).map (beyond area)
  ops : ∀ i < 3, ∃ logged, s.pc (Fin.ofNat NPROC i) = .inOp logged ∧
    logged.length = min MAXOPBLOCKS (n - MAXOPBLOCKS * i)

theorem proc_ne {i j : ℕ} (hi : i < 3) (hj : j < 3) (h : i ≠ j) :
    Fin.ofNat NPROC i ≠ Fin.ofNat NPROC j := by
  intro hfin
  have hval : i % 64 = j % 64 := congrArg Fin.val hfin
  omega

/-- The turn of the third operation is the last one. -/
theorem turn_lt {n : ℕ} (h : n < LOGSIZE) : n / MAXOPBLOCKS < 3 :=
  Nat.div_lt_of_lt_mul h

theorem Filled.length {n : ℕ} (h : Filled area n s) : s.log.lh.length = n := by
  rw [h.lh]
  simp

/-- The operation whose turn it is. -/
theorem Filled.turn {n : ℕ} (h : Filled area n s) (hn : n < LOGSIZE) :
    ∃ logged, s.pc (Fin.ofNat NPROC (n / MAXOPBLOCKS)) = .inOp logged ∧
      logged.length = n - MAXOPBLOCKS * (n / MAXOPBLOCKS) ∧ logged.length < MAXOPBLOCKS := by
  obtain ⟨logged, hp, hlen⟩ := h.ops (n / MAXOPBLOCKS) (turn_lt hn)
  have hmax : MAXOPBLOCKS = 10 := rfl
  rw [hmax] at hlen ⊢
  exact ⟨logged, hp, by omega, by omega⟩

theorem Filled.next {n : ℕ} (h : Filled area n s) (hsize : area.size ≤ LOGSIZE)
    (hn : n < area.size - 1) :
    ∃ s', Reachable (step area) (Limited area) s s' ∧ Filled area (n + 1) s' := by
  have hmax : MAXOPBLOCKS = 10 := rfl
  have hlog : n < LOGSIZE := by omega
  obtain ⟨logged, hp, hlen, hlt⟩ := h.turn hlog
  have hnew : beyond area n ∉ s.log.lh := by
    rw [h.lh]
    intro hmem
    obtain ⟨i, hi, heq⟩ := List.mem_map.mp hmem
    rw [List.mem_range] at hi
    exact absurd (beyond_inj hsize (hi.trans hlog) hlog heq) (Nat.ne_of_lt hi)
  have htests : s.log.logWriteTests area = true := by
    refine Log.logWriteTests_eq_true.mpr ⟨?_, ?_⟩
    · rw [h.length]
      exact ⟨hlog, hn⟩
    · rw [h.outstanding]
      decide
  obtain ⟨s', hr, htidy, hlog', hpc⟩ :=
    h.log_write (fun _ => 0) hp htests (not_holds_beyond hsize hlog) hlt
  refine ⟨s', hr, htidy, by rw [hlog']; exact h.outstanding, ?_, ?_⟩
  · rw [hlog', Log.record, if_neg hnew, h.lh, List.range_succ, List.map_append]
    rfl
  · intro i hi
    rw [hpc]
    by_cases heq : i = n / MAXOPBLOCKS
    · subst heq
      refine ⟨_, Function.update_self _ _ _, ?_⟩
      rw [List.length_cons, hlen, hmax]
      omega
    · obtain ⟨other, hother, hlen'⟩ := h.ops i hi
      refine ⟨other, ?_, ?_⟩
      · rw [Function.update_of_ne (proc_ne hi (turn_lt hlog) heq)]
        exact hother
      · rw [hlen', hmax]
        rw [hmax] at heq
        omega

/-- The operations stay within their limits until the log is full. -/
theorem Filled.reach {n : ℕ} (h : Filled area 0 s) (hsize : area.size ≤ LOGSIZE)
    (hn : n ≤ area.size - 1) :
    ∃ s', Reachable (step area) (Limited area) s s' ∧ Filled area n s' := by
  induction n with
  | zero => exact ⟨s, .refl, h⟩
  | succ n ih =>
      obtain ⟨s₁, hr₁, h₁⟩ := ih (by omega)
      obtain ⟨s₂, hr₂, h₂⟩ := h₁.next hsize (by omega)
      exact ⟨s₂, hr₁.trans hr₂, h₂⟩

/-- The next call of `log_write` panics. -/
theorem Filled.panics {n : ℕ} (h : Filled area n s) (hsize : area.size ≤ LOGSIZE)
    (hn : n < LOGSIZE) (hfull : area.size - 1 ≤ n) :
    ∃ s', Reachable (step area) (Limited area) s s' ∧ s'.phase = .panicked := by
  obtain ⟨logged, hp, -, hlt⟩ := h.turn hn
  obtain ⟨d, -, hbread⟩ := h.bread area (by rw [hp]; trivial) (by rw [h.length]; exact hn)
    (beyond area n)
  have htests : s.log.logWriteTests area = false := by
    refine Bool.eq_false_iff.mpr fun htests => ?_
    obtain ⟨⟨-, hroom⟩, -⟩ := Log.logWriteTests_eq_true.mp htests
    rw [h.length] at hroom
    omega
  generalize hs₁ : (s.withDrive d).withHeld _ = s₁ at hbread
  have hp₁ : s₁.pc (Fin.ofNat NPROC (n / MAXOPBLOCKS)) = .inOp logged := by
    rw [← hs₁]
    exact hp
  have hwrite : step area s₁ (.write (Fin.ofNat NPROC (n / MAXOPBLOCKS)) (beyond area n) 0) =
      some ((s₁.withDrive (d.store (beyond area n) 0)).inPhase .panicked) := by
    subst hs₁
    rw [step_write area (s := (s.withDrive d).withHeld _) h.up hp (List.mem_singleton.mpr rfl)]
    refine congrArg some (if_neg ?_)
    change ¬ s.log.logWriteTests area = true
    simp [htests]
  have hr₁ : Reachable (step area) (Limited area) s s₁ := Reachable.refl.tail (by trivial) hbread
  have hok : Limited area s₁ (.write (Fin.ofNat NPROC (n / MAXOPBLOCKS)) (beyond area n) 0) := by
    refine ⟨not_holds_beyond hsize hn, fun logged' hp' => ?_⟩
    obtain rfl := Pc.inOp.inj (hp₁.symm.trans hp')
    exact hlt
  exact ⟨_, hr₁.tail hok hwrite, rfl⟩

/-- The next process enters an operation. -/
theorem exists_enter (area : LogArea) {i : ℕ} (hi : i < 3) (h : Tidy s)
    (hlog : s.log = ⟨i, false, []⟩) (hin : ∀ j < i, s.pc (Fin.ofNat NPROC j) = .inOp [])
    (hout : ∀ j < 3, i ≤ j → s.pc (Fin.ofNat NPROC j) = .outside) :
    ∃ s', Reachable (step area) (Limited area) s s' ∧ Tidy s' ∧
      s'.log = ⟨(i + 1 : ℕ), false, []⟩ ∧
      (∀ j < i + 1, s'.pc (Fin.ofNat NPROC j) = .inOp []) ∧
      ∀ j < 3, i + 1 ≤ j → s'.pc (Fin.ofNat NPROC j) = .outside := by
  have hcall : step area s (.call (Fin.ofNat NPROC i)) =
      some (s.goto (Fin.ofNat NPROC i) .beginOp) :=
    step_call area h.up (hout i hi (Nat.le_refl i)) (by simp [State.HoldsNone, h.held])
  have hbegin : s.log.beginOp = some ⟨i + 1, false, []⟩ := by
    have hmax : MAXOPBLOCKS = 10 := rfl
    have hsize : LOGSIZE = 30 := rfl
    rw [hlog]
    refine Log.beginOp_eq_some.mpr ⟨rfl, ?_, rfl⟩
    rw [hmax, hsize]
    simp only [List.length_nil]
    omega
  have henter : step area (s.goto (Fin.ofNat NPROC i) .beginOp) (.enter (Fin.ofNat NPROC i)) =
      some (((s.goto (Fin.ofNat NPROC i) .beginOp).withLog ⟨i + 1, false, []⟩).goto
        (Fin.ofNat NPROC i) (.inOp [])) :=
    step_enter area h.up (State.goto_self _ _ _) hbegin
  have hr₁ : Reachable (step area) (Limited area) s _ := Reachable.refl.tail (by trivial) hcall
  refine ⟨_, hr₁.tail (by trivial) henter, ⟨h.up, h.held, h.clean, ?_⟩, rfl, ?_, ?_⟩
  · intro b hb
    have hmem := h.dirty b hb
    rw [hlog] at hmem
    exact hmem
  · intro j hj
    by_cases heq : j = i
    · subst heq
      exact State.goto_self _ _ _
    · rw [State.goto_of_ne (proc_ne (by omega) hi heq)]
      change (s.goto (Fin.ofNat NPROC i) .beginOp).pc (Fin.ofNat NPROC j) = _
      rw [State.goto_of_ne (proc_ne (by omega) hi heq)]
      exact hin j (by omega)
  · intro j hj hij
    rw [State.goto_of_ne (proc_ne hj hi (by omega))]
    change (s.goto (Fin.ofNat NPROC i) .beginOp).pc (Fin.ofNat NPROC j) = _
    rw [State.goto_of_ne (proc_ne hj hi (by omega))]
    exact hout j hj (by omega)

theorem exists_filled (hclean : getHead (disk area.start) = some []) :
    ∃ s, Reachable (step area) (Limited area) (boot disk) s ∧ Filled area 0 s := by
  obtain ⟨s₀, hr₀, href₀, hup₀, hlog₀, hheld₀, hpc₀⟩ :=
    exists_up (Limited area) hclean fun _ => trivial
  have hgather : Gathering area s₀.drive s₀.log.lh _ :=
    (href₀.running hup₀).gathering (by rw [hlog₀]; rfl)
  have htidy₀ : Tidy s₀ := by
    refine ⟨hup₀, hheld₀, ?_, fun b hb => (hgather.dirty b).mp hb⟩
    have hquiet : Quiet s₀ := ⟨hup₀, by rw [hlog₀]; rfl, by rw [hlog₀]; rfl⟩
    exact (href₀.running hup₀).clean.mono fun b hb => hquiet.not_pending href₀.control b hb
  obtain ⟨s₁, hr₁, htidy₁, hlog₁, hin₁, hout₁⟩ :=
    exists_enter area (i := 0) (by decide) htidy₀ hlog₀ (by simp) fun j _ _ => hpc₀ _
  obtain ⟨s₂, hr₂, htidy₂, hlog₂, hin₂, hout₂⟩ :=
    exists_enter area (i := 1) (by decide) htidy₁ hlog₁ hin₁ hout₁
  obtain ⟨s₃, hr₃, htidy₃, hlog₃, hin₃, _⟩ :=
    exists_enter area (i := 2) (by decide) htidy₂ hlog₂ hin₂ hout₂
  refine ⟨s₃, ((hr₀.trans hr₁).trans hr₂).trans hr₃, htidy₃, by rw [hlog₃]; rfl,
    by rw [hlog₃]; rfl, ?_⟩
  intro i hi
  exact ⟨[], hin₃ i hi, by simp⟩

/-- Operations that call `log_write` at most `MAXOPBLOCKS` times are safe from the panics of the
log exactly if the log area has more than `LOGSIZE` blocks. -/
theorem no_panic_iff (hclean : getHead (disk area.start) = some []) :
    (∀ s, Reachable (step area) (Limited area) (boot disk) s → s.phase ≠ .panicked) ↔
      LOGSIZE < area.size := by
  constructor
  · intro h
    by_contra hsmall
    obtain ⟨s₀, hr₀, h₀⟩ := exists_filled hclean
    obtain ⟨s₁, hr₁, h₁⟩ := h₀.reach (n := area.size - 1) (by omega) (Nat.le_refl _)
    have hlt : area.size - 1 < LOGSIZE := by
      have := area.header
      omega
    obtain ⟨s₂, hr₂, hpanicked⟩ := h₁.panics (by omega) hlt (Nat.le_refl _)
    exact h s₂ ((hr₀.trans hr₁).trans hr₂) hpanicked
  · intro hsize s hr
    have hinv : Control s ∧ Reserved s ∧ s.phase ≠ .panicked := by
      refine hr.invariant (P := fun s => Control s ∧ Reserved s ∧ s.phase ≠ .panicked) ?_
        fun t a t' ht hok hs => ?_
      · exact ⟨.boot disk, .boot disk, by simp [boot]⟩
      · exact ⟨ht.1.step hs, ht.2.1.step ht.1 hok hs,
          ht.2.1.no_panic ht.1 hsize ht.2.2 hok hs⟩
    exact hinv.2.2

/-- The log of `mkfs` is too small. -/
theorem no_panic_iff_mkfs :
    ¬ LOGSIZE < LogArea.mkfs.size ∧
    ((∀ s, Reachable (step .mkfs) (Limited .mkfs) (boot fun _ _ => 0) s → s.phase ≠ .panicked) ↔
      LOGSIZE < LogArea.mkfs.size) :=
  ⟨by decide, no_panic_iff rfl⟩

end OsSolutions.FsLog
