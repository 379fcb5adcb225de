import OsSolutions.Verification.File.Safety
import OsSolutions.Verification.Pipe.Stream

/-! # The pipes of the system and the machine of one pipe

As long as a page is in use, its pipe and the processes inside of it make the steps of the machine
of one pipe. The guards of that machine are what the reference counts of the files ensure. -/

namespace OsSolutions.Files

open Pointers Transition

section

variable {Page : Type} [DecidableEq Page]

/-- The place of a process as the pipe at `pg` sees it. -/
def Pc.inside (pg : Page) : Pc Page → Pipes.Pc
  | .inPipe _ pg' c => if pg' = pg then c else .outside
  | _ => .outside

/-- What the state of the system has in common with a state of the machine of one pipe. -/
structure Shows (s : State Page) (pg : Page) (t : Pipes.State) : Prop where
  pipe : s.pages pg = some t.pipe
  killed : ∀ p, t.killed p = (s.kernel.proc p).killed
  pc : ∀ p, t.pc p = (s.pc p).inside pg
  bytesIn : t.bytesIn = s.bytesIn pg
  bytesOut : t.bytesOut = s.bytesOut pg

end

variable {Page : Type} [DecidableEq Page] {s s' : State Page} {a : Act Page} {p : Fin NPROC}
  {pg pg' : Page} {t t' : Pipes.State}

@[simp] theorem inside_inPipe (f : Fin NFILE) (pg : Page) (c : Pipes.Pc) :
    (Pc.inPipe f pg c).inside pg = c := by
  simp [Pc.inside]

theorem inside_of_ne (f : Fin NFILE) (c : Pipes.Pc) (h : pg' ≠ pg) :
    (Pc.inPipe f pg' c).inside pg = .outside := by
  simp [Pc.inside, h]

theorem inside_mapPipe {g : Pipes.Pc → Pipes.Pc} (hg : g .outside = .outside) (pg : Page)
    (c : Pc Page) : (c.mapPipe pg g).inside pg = g (c.inside pg) := by
  cases c with
  | inPipe f pg' c =>
      by_cases hpg : pg' = pg
      · simp [Pc.mapPipe, Pc.inside, hpg]
      · simp [Pc.mapPipe, Pc.inside, hpg, hg]
  | _ => exact hg.symm

theorem inside_mapPipe_of_ne (g : Pipes.Pc → Pipes.Pc) (h : pg' ≠ pg) (c : Pc Page) :
    (c.mapPipe pg' g).inside pg = c.inside pg := by
  cases c with
  | inPipe f pg'' c =>
      by_cases hpg : pg'' = pg'
      · subst hpg
        rw [Pc.mapPipe, inside_of_ne _ _ h, inside_of_ne _ _ h]
      · rw [Pc.mapPipe, if_neg hpg]
  | _ => rfl

namespace Shows

/-! ## Steps elsewhere -/

theorem congr (h : Shows s pg t) (hpage : s'.pages pg = s.pages pg)
    (hkilled : ∀ p, (s'.kernel.proc p).killed = (s.kernel.proc p).killed)
    (hpc : ∀ p, (s'.pc p).inside pg = (s.pc p).inside pg)
    (hin : s'.bytesIn pg = s.bytesIn pg) (hout : s'.bytesOut pg = s.bytesOut pg) :
    Shows s' pg t := by
  refine ⟨hpage.trans h.pipe, ?_, ?_, ?_, ?_⟩
  · intro p
    rw [hkilled p]
    exact h.killed p
  · intro p
    rw [hpc p]
    exact h.pc p
  · rw [hin]
    exact h.bytesIn
  · rw [hout]
    exact h.bytesOut

theorem inside_goto {c : Pc Page} (hc : c.inside pg = (s.pc p).inside pg) (q : Fin NPROC) :
    ((s.goto p c).pc q).inside pg = (s.pc q).inside pg := by
  by_cases hq : q = p
  · subst hq
    rw [State.goto_self, hc]
  · rw [State.goto_of_ne hq]

/-- A process goes on to another place that is not in this pipe. -/
theorem goto (h : Shows s pg t) {c : Pc Page} (hc : c.inside pg = (s.pc p).inside pg) :
    Shows (s.goto p c) pg t :=
  h.congr rfl (fun _ => rfl) (inside_goto hc) rfl rfl

theorem files (h : Shows s pg t) {o : OFile} {u : FTable Page} {c : Pc Page}
    (hc : c.inside pg = (s.pc p).inside pg) : Shows ((s.withFiles o u).goto p c) pg t :=
  h.congr rfl (fun _ => rfl) (inside_goto hc) rfl rfl

theorem kernel (h : Shows s pg t) {k : Kernel} {c : Pc Page}
    (hkilled : ∀ q, (k.proc q).killed = (s.kernel.proc q).killed)
    (hc : c.inside pg = (s.pc p).inside pg) : Shows ((s.withKernel k).goto p c) pg t :=
  h.congr rfl hkilled (inside_goto hc) rfl rfl

theorem modify_killed (k : Kernel) (q : Fin NPROC) {u : Proc → Proc}
    (hu : (u (k.proc q)).killed = (k.proc q).killed) (r : Fin NPROC) :
    ((k.modify q u).proc r).killed = (k.proc r).killed := by
  by_cases hr : r = q
  · subst hr
    rw [Kernel.modify_proc_self, hu]
  · rw [Kernel.modify_proc_of_ne _ hr]

/-! ## The steps of the pipe -/

/-- The places of the processes after a step of `p`. -/
theorem goto_pc (h : ∀ q, t.pc q = (s.pc q).inside pg) {c : Pc Page} {d : Pipes.Pc}
    (hc : c.inside pg = d) (q : Fin NPROC) :
    (t.goto p d).pc q = ((s.goto p c).pc q).inside pg := by
  by_cases hq : q = p
  · subst hq
    have hself := Pipes.State.goto_self t q d
    rw [hself, State.goto_self, hc]
  · have hne := Pipes.State.goto_of_ne (s := t) (c := d) hq
    rw [hne, State.goto_of_ne hq, h q]

theorem wakeReaders_pc (h : ∀ q, t.pc q = (s.pc q).inside pg) (q : Fin NPROC) :
    t.wakeReaders.pc q = ((s.wakeReaders pg).pc q).inside pg := by
  change wokenReader (t.pc q) = ((s.pc q).mapPipe pg wokenReader).inside pg
  rw [inside_mapPipe rfl, h q]

theorem wakeWriters_pc (h : ∀ q, t.pc q = (s.pc q).inside pg) (q : Fin NPROC) :
    t.wakeWriters.pc q = ((s.wakeWriters pg).pc q).inside pg := by
  change wokenWriter (t.pc q) = ((s.pc q).mapPipe pg wokenWriter).inside pg
  rw [inside_mapPipe rfl, h q]

/-- A step of one process inside of the pipe. -/
theorem goto_both (h : Shows s pg t) {c : Pc Page} {d : Pipes.Pc} (hc : c.inside pg = d) :
    Shows (s.goto p c) pg (t.goto p d) :=
  ⟨h.pipe, h.killed, goto_pc h.pc hc, h.bytesIn, h.bytesOut⟩

theorem wakeReaders (h : Shows s pg t) : Shows (s.wakeReaders pg) pg t.wakeReaders :=
  ⟨h.pipe, h.killed, wakeReaders_pc h.pc, h.bytesIn, h.bytesOut⟩

theorem wakeWriters (h : Shows s pg t) : Shows (s.wakeWriters pg) pg t.wakeWriters :=
  ⟨h.pipe, h.killed, wakeWriters_pc h.pc, h.bytesIn, h.bytesOut⟩

theorem wrote (h : Shows s pg t) (q : Pipe) (addr : List UInt8) (e : WriteEnd) :
    Shows (s.wrote pg q addr e) pg
      ((t.withPipe q).accept p (addr.take (addr.length - e.rest.length))) := by
  refine ⟨Function.update_self .., h.killed, h.pc, ?_, ?_⟩
  · have haccept := Pipes.State.bytesIn_accept (t.withPipe q) p
      (addr.take (addr.length - e.rest.length))
    rw [haccept]
    change t.bytesIn ++ _ = Function.update s.bytesIn pg _ pg
    rw [h.bytesIn, Function.update_self]
    rfl
  · exact h.bytesOut

theorem took (h : Shows s pg t) (q : Pipe) (bytes : List UInt8) :
    Shows (s.took pg q bytes) pg ((t.withPipe q).deliver p bytes) := by
  refine ⟨Function.update_self .., h.killed, h.pc, h.bytesIn, ?_⟩
  have hdeliver := Pipes.State.bytesOut_deliver (t.withPipe q) p bytes
  rw [hdeliver]
  change t.bytesOut ++ _ = Function.update s.bytesOut pg _ pg
  rw [h.bytesOut, Function.update_self]
  rfl

/-- A change of the bookkeeping that the system does not have. -/
theorem of_eq (h : Shows s pg t) (hpipe : t'.pipe = t.pipe) (hkilled : t'.killed = t.killed)
    (hpc : t'.pc = t.pc) (hin : t'.accepted = t.accepted) (hout : t'.delivered = t.delivered) :
    Shows s pg t' := by
  refine ⟨?_, ?_, ?_, ?_, ?_⟩
  · rw [hpipe]
    exact h.pipe
  · rw [hkilled]
    exact h.killed
  · rw [hpc]
    exact h.pc
  · rw [← h.bytesIn]
    exact congrArg (List.map Prod.snd) hin
  · rw [← h.bytesOut]
    exact congrArg (List.map Prod.snd) hout

/-! ## Every step -/

/-- The machine of one pipe can follow with some steps. -/
def Follows (t : Pipes.State) (s' : State Page) (pg : Page) : Prop :=
  ∃ bs t', run Pipes.step t bs = some t' ∧ Shows s' pg t'

theorem stays (h : Shows s' pg t) : Follows t s' pg := ⟨[], t, rfl, h⟩

theorem once {b : Pipes.Act} (hb : Pipes.step t b = some t') (h : Shows s' pg t') :
    Follows t s' pg :=
  ⟨[b], t', by rw [run_cons, hb]; rfl, h⟩

theorem outside (h : Shows s pg t) (hp : (s.pc p).inside pg = .outside) : t.pc p = .outside :=
  (h.pc p).trans hp

theorem flag (h : Shows s pg t) (he : Ends s) {f : Fin NFILE} {writable : Bool}
    (hf : s.ftable.ends f = some (pg, writable)) : t.pipe.isOpen writable = true := by
  obtain ⟨q, hq, hopen⟩ := page_of_open (he.open_of_file hf)
  obtain rfl : q = t.pipe := Option.some.inj (hq.symm.trans h.pipe)
  exact hopen

theorem callRead (h : Shows s pg t) (he : Ends s) (hp : s.Ready p) {f : Fin NFILE}
    (hf : s.ftable.ends f = some (pg', false)) (n : ℕ) :
    Follows t (s.goto p (.inPipe f pg' (.read n))) pg := by
  have hout : (s.pc p).inside pg = .outside := by rw [hp.2]; rfl
  by_cases hpg : pg' = pg
  · subst hpg
    have hflag : t.pipe.readopen = true := h.flag he hf
    have hstep : Pipes.step t (.callRead p n) = some (t.goto p (.read n)) :=
      if_pos ⟨h.outside hout, hflag⟩
    exact once hstep (h.goto_both (inside_inPipe f pg' _))
  · exact stays (h.goto (by rw [inside_of_ne _ _ hpg, hout]))

theorem callWrite (h : Shows s pg t) (he : Ends s) (hp : s.Ready p) {f : Fin NFILE}
    (hf : s.ftable.ends f = some (pg', true)) (addr : List UInt8) :
    Follows t (s.goto p (.inPipe f pg' (.write addr))) pg := by
  have hout : (s.pc p).inside pg = .outside := by rw [hp.2]; rfl
  by_cases hpg : pg' = pg
  · subst hpg
    have hflag : t.pipe.writeopen = true := h.flag he hf
    have hstep : Pipes.step t (.callWrite p addr) =
        some ((t.pass p addr).goto p (.write addr)) := if_pos ⟨h.outside hout, hflag⟩
    have hpass : Shows s pg' (t.pass p addr) := h.of_eq rfl rfl rfl rfl rfl
    exact once hstep (hpass.goto_both (inside_inPipe f pg' _))
  · exact stays (h.goto (by rw [inside_of_ne _ _ hpg, hout]))

/-- A section of a call on another pipe. -/
theorem elsewhere (h : Shows s pg t) (hpg : pg' ≠ pg) {u : State Page} {c : Pc Page}
    (hkernel : u.kernel = s.kernel) (hpages : ∀ x, x ≠ pg' → u.pages x = s.pages x)
    (hin : ∀ x, x ≠ pg' → u.bytesIn x = s.bytesIn x)
    (hout : ∀ x, x ≠ pg' → u.bytesOut x = s.bytesOut x)
    (hpc : ∀ q, (u.pc q).inside pg = (s.pc q).inside pg)
    (hc : c.inside pg = (s.pc p).inside pg) : Shows (u.goto p c) pg t := by
  refine h.congr (hpages pg (Ne.symm hpg)) (fun q => by rw [show (u.goto p c).kernel = _ from
    hkernel]) ?_ (hin pg (Ne.symm hpg)) (hout pg (Ne.symm hpg))
  intro q
  rw [inside_goto (by rw [hc, hpc]), hpc]

theorem wroteElsewhere (h : Shows s pg t) (hpg : pg' ≠ pg) (q : Pipe) (addr : List UInt8)
    (e : WriteEnd) {c : Pc Page} (hc : c.inside pg = (s.pc p).inside pg) :
    Shows ((s.wrote pg' q addr e).goto p c) pg t :=
  h.elsewhere hpg rfl (fun _ hx => Function.update_of_ne hx _ _)
    (fun _ hx => Function.update_of_ne hx _ _) (fun _ _ => rfl) (fun _ => rfl) hc

theorem wroteWokeElsewhere (h : Shows s pg t) (hpg : pg' ≠ pg) (q : Pipe) (addr : List UInt8)
    (e : WriteEnd) {c : Pc Page} (hc : c.inside pg = (s.pc p).inside pg) :
    Shows (((s.wrote pg' q addr e).wakeReaders pg').goto p c) pg t :=
  h.elsewhere hpg rfl (fun _ hx => Function.update_of_ne hx _ _)
    (fun _ hx => Function.update_of_ne hx _ _) (fun _ _ => rfl)
    (fun r => inside_mapPipe_of_ne wokenReader hpg (s.pc r)) hc

theorem tookElsewhere (h : Shows s pg t) (hpg : pg' ≠ pg) (q : Pipe) (bytes : List UInt8)
    {c : Pc Page} (hc : c.inside pg = (s.pc p).inside pg) :
    Shows (((s.took pg' q bytes).wakeWriters pg').goto p c) pg t :=
  h.elsewhere hpg rfl (fun _ hx => Function.update_of_ne hx _ _) (fun _ _ => rfl)
    (fun _ hx => Function.update_of_ne hx _ _)
    (fun r => inside_mapPipe_of_ne wokenWriter hpg (s.pc r)) hc

theorem madeElsewhere (h : Shows s pg t) (hpg : pg' ≠ pg) {data : Fin PIPESIZE → UInt8}
    {o : OFile} {u : FTable Page} {c : Pc Page} (hc : c.inside pg = (s.pc p).inside pg) :
    Shows (((s.makePipe pg' data).withFiles o u).goto p c) pg t :=
  h.elsewhere hpg rfl (fun _ hx => Function.update_of_ne hx _ _)
    (fun _ hx => Function.update_of_ne hx _ _) (fun _ hx => Function.update_of_ne hx _ _)
    (fun _ => rfl) hc

/-- A section of `pipewrite` in this pipe. -/
theorem runWrite (h : Shows s pg t) {f : Fin NFILE} {addr : List UInt8} {q q' : Pipe}
    {e : WriteEnd} {s' : State Page} {t' : Pipes.State}
    (hpc : s.pc p = .inPipe f pg (.write addr)) (hq : s.pages pg = some q)
    (hw : pipewrite (s.kernel.proc p).killed addr q = (q', e))
    (ht : (pipewrite (t.killed p) addr t.pipe = (q', e)) → t.runWrite p addr = t')
    (hshows : Shows s' pg t') : Follows t s' pg := by
  have hplace : t.pc p = .write addr := by rw [h.pc p, hpc, inside_inPipe]
  obtain rfl : q = t.pipe := Option.some.inj (hq.symm.trans h.pipe)
  have hsection := ht (by rw [h.killed p, hw])
  have hstep : Pipes.step t (.run p) = some t' := by
    unfold Pipes.step
    dsimp only
    rw [hplace, ← hsection]
  exact once hstep hshows

theorem runRead (h : Shows s pg t) {f : Fin NFILE} {n : ℕ} {q q' : Pipe} {e : ReadEnd}
    {s' : State Page} {t' : Pipes.State} (hpc : s.pc p = .inPipe f pg (.read n))
    (hq : s.pages pg = some q) (hr : piperead (s.kernel.proc p).killed n q = (q', e))
    (ht : (piperead (t.killed p) n t.pipe = (q', e)) → t.runRead p n = t')
    (hshows : Shows s' pg t') : Follows t s' pg := by
  have hplace : t.pc p = .read n := by rw [h.pc p, hpc, inside_inPipe]
  obtain rfl : q = t.pipe := Option.some.inj (hq.symm.trans h.pipe)
  have hsection := ht (by rw [h.killed p, hr])
  have hstep : Pipes.step t (.run p) = some t' := by
    unfold Pipes.step
    dsimp only
    rw [hplace, ← hsection]
  exact once hstep hshows

theorem not_writes {c : Pipes.Pc} (h : c.Reads) : ¬ c.Writes := by
  cases c with
  | write | writeAsleep => cases h
  | _ => exact id

/-- Nobody is inside of a call on the end that a process is about to close. -/
theorem alone_at_end (hc : Core s) (he : Ends s) {writable : Bool}
    (hpend : (s.pc p).pend = some (pg, writable)) {r : Fin NPROC} {c : Pipes.Pc}
    (hr : (s.pc r).inside pg = c) (hout : c ≠ .outside) : decide c.Writes ≠ writable := by
  rintro rfl
  cases hpc : s.pc r with
  | inPipe f pg' d =>
      rw [hpc, Pc.inside] at hr
      split at hr
      · rename_i hpg
        subst hpg hr
        have hknows := (hc.place r).knows
        rw [hpc] at hknows
        have hone := he.one (pg', decide d.Writes)
        have hfile := count_pos hknows.2.2
        have hle := le_tally
          (fun q => if (s.pc q).pend = some (pg', decide d.Writes) then 1 else 0) p
        simp only [hpend, if_true] at hle
        unfold State.owners at hone
        split at hone <;> omega
      · exact hout hr.symm
  | _ =>
      rw [hpc] at hr
      exact hout hr.symm

theorem shut (h : Shows s pg t) (hc : Core s) (he : Ends s) {writable : Bool} {q : Pipe}
    (hpend : (s.pc p).pend = some (pg', writable)) (hq : s.pages pg' = some q)
    (hused : (s.shut pg' writable q).pages pg ≠ none) :
    Follows t ((s.shut pg' writable q).goto p (s.pc p).settled) pg := by
  have hpages : (s.shut pg' writable q).pages = Function.update s.pages pg'
      (if (pipeclose writable q).2 then none else some (pipeclose writable q).1) := by
    cases writable <;> rfl
  have hplace : ∀ x : Page, (s.pc p).inside x = .outside ∧
      (s.pc p).settled.inside x = .outside := by
    intro x
    cases hpc : s.pc p with
    | closing | exitClosing => exact ⟨rfl, rfl⟩
    | _ => rw [hpc] at hpend; cases hpend
  by_cases hpg : pg' = pg
  · subst hpg
    obtain rfl : q = t.pipe := Option.some.inj (hq.symm.trans h.pipe)
    have hkept : (s.shut pg' writable t.pipe).pages pg' =
        some (pipeclose writable t.pipe).1 := by
      rw [hpages, Function.update_self] at hused ⊢
      split
      · rename_i hfree
        rw [if_pos hfree] at hused
        exact absurd rfl hused
      · rfl
    have hopen : t.pipe.isOpen writable = true := by
      obtain ⟨r, hr, hopen⟩ := page_of_open (he.open_of_pend hpend)
      obtain rfl : r = t.pipe := Option.some.inj (hr.symm.trans h.pipe)
      exact hopen
    have hshut : Shows (s.shut pg' writable t.pipe) pg' (t.close writable) := by
      cases writable with
      | true =>
          exact ⟨hkept, h.killed, wakeReaders_pc (s := s.setPage pg' _)
            (t := t.withPipe (pipeclose true t.pipe).1) h.pc, h.bytesIn, h.bytesOut⟩
      | false =>
          exact ⟨hkept, h.killed, wakeWriters_pc (s := s.setPage pg' _)
            (t := t.withPipe (pipeclose false t.pipe).1) h.pc, h.bytesIn, h.bytesOut⟩
    have hstep : Pipes.step t (.close writable) = some (t.close writable) := by
      cases writable with
      | true =>
          refine if_pos ⟨hopen, fun r hr => ?_⟩
          have hne := alone_at_end hc he hpend (h.pc r).symm fun heq => by
            rw [heq] at hr
            exact hr
          exact hne (decide_eq_true hr)
      | false =>
          refine if_pos ⟨hopen, fun r hr => ?_⟩
          have hne := alone_at_end hc he hpend (h.pc r).symm fun heq => by
            rw [heq] at hr
            exact hr
          exact hne (decide_eq_false (not_writes hr))
    refine once hstep (hshut.goto ?_)
    rw [(hplace pg').2]
    cases writable with
    | true =>
        change _ = ((s.pc p).mapPipe pg' wokenReader).inside pg'
        rw [inside_mapPipe rfl, (hplace pg').1]
        rfl
    | false =>
        change _ = ((s.pc p).mapPipe pg' wokenWriter).inside pg'
        rw [inside_mapPipe rfl, (hplace pg').1]
        rfl
  · refine stays ?_
    refine h.elsewhere hpg ?_ ?_ ?_ ?_ ?_ ?_
    · cases writable <;> rfl
    · intro x hx
      rw [hpages, Function.update_of_ne hx]
    · cases writable <;> exact fun _ _ => rfl
    · cases writable <;> exact fun _ _ => rfl
    · intro r
      cases writable with
      | true => exact inside_mapPipe_of_ne wokenReader hpg (s.pc r)
      | false => exact inside_mapPipe_of_ne wokenWriter hpg (s.pc r)
    · rw [(hplace pg).1, (hplace pg).2]

theorem wake (h : Shows s pg t) (q : Fin NPROC) : Shows (s.wake q) pg (t.wake q) := by
  have hq := h.pc q
  cases hpc : s.pc q with
  | inPipe f pg' c =>
      have hwake : s.wake q = s.goto q (.inPipe f pg' (wokenReader (wokenWriter c))) := by
        unfold State.wake
        rw [hpc]
      rw [hwake]
      by_cases hpg : pg' = pg
      · subst hpg
        rw [hpc, inside_inPipe] at hq
        unfold Pipes.State.wake
        rw [hq]
        cases c with
        | readAsleep n => exact h.goto_both (inside_inPipe f pg' _)
        | writeAsleep rest => exact h.goto_both (inside_inPipe f pg' _)
        | _ => exact h.goto (by rw [hpc]; rfl)
      · rw [hpc, inside_of_ne _ _ hpg] at hq
        unfold Pipes.State.wake
        rw [hq]
        exact h.goto (by rw [hpc, inside_of_ne _ _ hpg, inside_of_ne _ _ hpg])
  | _ =>
      have hwake : s.wake q = s := by
        unfold State.wake
        rw [hpc]
      rw [hpc] at hq
      unfold Pipes.State.wake
      rw [hwake, hq]
      exact h

theorem kill (h : Shows s pg t) {q : Fin NPROC} {u : Proc → Proc}
    (hu : (u (s.kernel.proc q)).killed = true) :
    Follows t ((s.withKernel (s.kernel.modify q u)).wake q) pg := by
  have hkilled : Shows (s.withKernel (s.kernel.modify q u)) pg (t.setKilled q) := by
    refine ⟨h.pipe, ?_, h.pc, h.bytesIn, h.bytesOut⟩
    intro r
    change Function.update t.killed q true r = ((s.kernel.modify q u).proc r).killed
    by_cases hr : r = q
    · subst hr
      rw [Function.update_self, Kernel.modify_proc_self, hu]
    · rw [Function.update_of_ne hr, Kernel.modify_proc_of_ne _ hr, h.killed r]
  have hstep : Pipes.step t (.kill q) = some ((t.setKilled q).wake q) := rfl
  exact once hstep (hkilled.wake q)

theorem reap (h : Shows s pg t) {q : Fin NPROC} {u : Proc → Proc} (hidle : s.pc q = .user)
    (hu : (u (s.kernel.proc q)).killed = false) :
    Follows t (s.withKernel (s.kernel.modify q u)) pg := by
  have hstep : Pipes.step t (.reap q) = some (t.clearKilled q) :=
    if_pos (h.outside (by rw [hidle]; rfl))
  refine once hstep ⟨h.pipe, ?_, h.pc, h.bytesIn, h.bytesOut⟩
  intro r
  change Function.update t.killed q false r = ((s.kernel.modify q u).proc r).killed
  by_cases hr : r = q
  · subst hr
    rw [Function.update_self, Kernel.modify_proc_self, hu]
  · rw [Function.update_of_ne hr, Kernel.modify_proc_of_ne _ hr, h.killed r]

theorem step_of_move (h : Shows s pg t) (hc : Core s) (he : Ends s) (hm : Move s a s')
    (hused : s'.pages pg ≠ none) (hold : s.pages pg ≠ none) : Follows t s' pg := by
  have hready : ∀ {q}, s.Ready q → (s.pc q).inside pg = .outside := by
    intro q hq
    rw [hq.2]
    rfl
  cases hm with
  | stay => exact stays h
  | dup => exact stays (h.congr rfl (fun _ => rfl) (fun _ => rfl) rfl rfl)
  | close hp => exact stays (h.files (hready hp).symm)
  | callRead hp _ hend => exact h.callRead he hp hend _
  | callWrite hp _ hend => exact h.callWrite he hp hend _
  | callInode hp => exact stays (h.goto (hready hp).symm)
  | writesOn hpc => exact stays (h.goto (by rw [hpc]; rfl))
  | written hpc => exact stays (h.goto (by rw [hpc]; rfl))
  | @wrote p f pg' addr q q' hpc hq hw =>
      by_cases hpg : pg' = pg
      · subst hpg
        refine h.runWrite hpc hq hw (fun ht => ?_)
          ((h.wrote (p := p) q' addr .returned).wakeReaders.goto_both (p := p) (d := .outside) rfl)
        unfold Pipes.State.runWrite
        rw [ht]
      · exact stays (h.wroteWokeElsewhere hpg q' addr _ (by rw [hpc, inside_of_ne _ _ hpg]; rfl))
  | @gaveUp p f pg' addr q q' rest hpc hq hw =>
      by_cases hpg : pg' = pg
      · subst hpg
        have hfailed : Shows (s.wrote pg' q' addr (.failed rest)) pg' (((t.withPipe q').accept p
            (addr.take (addr.length - rest.length))).fail p) :=
          (h.wrote (p := p) q' addr (.failed rest)).of_eq rfl rfl rfl rfl rfl
        refine h.runWrite hpc hq hw (fun ht => ?_)
          (hfailed.goto_both (p := p) (c := .user) (d := .outside) rfl)
        unfold Pipes.State.runWrite
        rw [ht]
        rfl
      · exact stays (h.wroteElsewhere hpg q' addr _ (by rw [hpc, inside_of_ne _ _ hpg]; rfl))
  | @writeSleeps p f pg' addr q q' rest hpc hq hw =>
      by_cases hpg : pg' = pg
      · subst hpg
        refine h.runWrite hpc hq hw (fun ht => ?_)
          ((h.wrote (p := p) q' addr (.asleep rest)).wakeReaders.goto_both (p := p)
            (inside_inPipe f pg' (.writeAsleep rest)))
        unfold Pipes.State.runWrite
        rw [ht]
      · exact stays (h.wroteWokeElsewhere hpg q' addr _
          (by rw [hpc, inside_of_ne _ _ hpg, inside_of_ne _ _ hpg]))
  | @took p f pg' n q q' bytes hpc hq hr =>
      by_cases hpg : pg' = pg
      · subst hpg
        have htook := (h.took (p := p) q' bytes).wakeWriters.goto_both (p := p) (c := .user)
          (d := .outside) rfl
        by_cases hend : n > 0 ∧ bytes = []
        · have hatEnd : Shows (((s.took pg' q' bytes).wakeWriters pg').goto p .user) pg'
              ((((t.withPipe q').deliver p bytes).wakeWriters.goto p .outside).atEnd p) :=
            htook.of_eq rfl rfl rfl rfl rfl
          refine h.runRead hpc hq hr (fun ht => ?_) hatEnd
          unfold Pipes.State.runRead
          rw [ht]
          exact if_pos hend
        · refine h.runRead hpc hq hr (fun ht => ?_) htook
          unfold Pipes.State.runRead
          rw [ht]
          exact if_neg hend
      · exact stays (h.tookElsewhere hpg q' bytes (by rw [hpc, inside_of_ne _ _ hpg]; rfl))
  | @readFails p f pg' n q q' hpc hq hr =>
      by_cases hpg : pg' = pg
      · subst hpg
        refine h.runRead hpc hq hr (fun ht => ?_)
          (h.goto_both (p := p) (c := .user) (d := .outside) rfl)
        unfold Pipes.State.runRead
        rw [ht]
      · exact stays (h.goto (by rw [hpc, inside_of_ne _ _ hpg]; rfl))
  | @readSleeps p f pg' n q q' hpc hq hr =>
      by_cases hpg : pg' = pg
      · subst hpg
        refine h.runRead hpc hq hr (fun ht => ?_)
          (h.goto_both (p := p) (inside_inPipe f pg' (.readAsleep n)))
        unfold Pipes.State.runRead
        rw [ht]
      · exact stays (h.goto (by rw [hpc, inside_of_ne _ _ hpg, inside_of_ne _ _ hpg]))
  | firstFile hp => exact stays (h.files (hready hp).symm)
  | secondFile hpc => exact stays (h.files (by rw [hpc]; rfl))
  | noFile hpc => exact stays (h.goto (by rw [hpc]; rfl))
  | noPage hpc => exact stays (h.goto (by rw [hpc]; rfl))
  | @piped p f0 f1 pg' data fd0 fd1 hpc hnew =>
      have hpg : pg' ≠ pg := by
        rintro rfl
        exact hold hnew
      exact stays (h.madeElsewhere hpg (by rw [hpc]; rfl))
  | @noDescriptors p f0 f1 pg' data hpc hnew =>
      have hpg : pg' ≠ pg := by
        rintro rfl
        exact hold hnew
      exact stays (h.madeElsewhere hpg (by rw [hpc]; rfl))
  | opens hp => exact stays (h.files (hready hp).symm)
  | noDescriptor hp => exact stays (h.files (hready hp).symm)
  | opened hpc => exact stays (h.files (by rw [hpc]; rfl))
  | shut hpend hq => exact h.shut hc he hpend hq hused
  | @closeHeld p f next u e hdue =>
      refine stays (h.files ?_)
      generalize s.pc p = c at hdue
      cases hdue <;> rfl
  | closed hpc => exact stays (h.goto (by rw [hpc]; rfl))
  | @fork p np hp =>
      refine stays (h.kernel (fun q => ?_) (hready hp).symm)
      exact modify_killed s.kernel np
        (u := fun x => { x with state := .embryo, pid := s.kernel.nextpid }) rfl q
  | copied hpc => exact stays (h.kernel (modify_killed s.kernel _ rfl) (by rw [hpc]; rfl))
  | notCopied hpc => exact stays (h.kernel (modify_killed s.kernel _ rfl) (by rw [hpc]; rfl))
  | forkSkips _ hpc => exact stays (h.goto (by rw [hpc]; rfl))
  | forkDups _ hpc => exact stays (h.files (by rw [hpc]; rfl))
  | forked _ hpc => exact stays (h.kernel (modify_killed s.kernel _ rfl) (by rw [hpc]; rfl))
  | exit hp => exact stays (h.goto (hready hp).symm)
  | exitSkips _ hpc => exact stays (h.goto (by rw [hpc]; rfl))
  | exitCloses _ hpc => exact stays (h.files (by rw [hpc]; rfl))
  | exitClears hpc => exact stays (h.files (by rw [hpc]; rfl))
  | @exited p fd _ hpc =>
      refine stays (h.kernel (fun q => ?_) (by rw [hpc]; rfl))
      rw [modify_killed (s.kernel.reparent p) p rfl]
      simp only [Kernel.reparent]
      split <;> rfl
  | wait hp hzombie => exact h.reap (hc.idle (by simp [hzombie])) rfl
  | kill => exact h.kill rfl

/-! ## A new pipe -/

/-- Processes that have been killed before may come to the pipe. -/
theorem kill_all (ps : List (Fin NPROC)) (t : Pipes.State) (hpc : ∀ p, t.pc p = .outside) :
    run Pipes.step t (ps.map .kill) =
      some { t with killed := fun p => if p ∈ ps then true else t.killed p } := by
  induction ps generalizing t with
  | nil => simp
  | cons p ps ih =>
      have hwake : (t.setKilled p).wake p = t.setKilled p := by
        unfold Pipes.State.wake
        rw [show (t.setKilled p).pc p = .outside from hpc p]
      have hstep : Pipes.step t (.kill p) = some (t.setKilled p) := congrArg some hwake
      rw [List.map_cons, run_cons, hstep, Option.bind_some, ih (t.setKilled p) hpc]
      congr 2
      funext q
      by_cases hq : q = p
      · simp [Pipes.State.setKilled, hq]
      · simp [Pipes.State.setKilled, hq]

theorem of_make (hnew : s.pages pg = none) (hc : Core s) (he : Ends s)
    (data : Fin PIPESIZE → UInt8) {o : OFile} {u : FTable Page} {c : Pc Page}
    (hin : c.inside pg = .outside) :
    ∃ t, Reachable Pipes.step Free (Pipes.init data) t ∧
      Shows (((s.makePipe pg data).withFiles o u).goto p c) pg t := by
  have hout : ∀ q, (s.pc q).inside pg = .outside := by
    intro q
    have hknows := (hc.place q).knows
    cases hpc : s.pc q with
    | inPipe f pg' d =>
        by_cases hpg : pg' = pg
        · subst hpg
          rw [hpc] at hknows
          obtain ⟨r, hr, _⟩ := page_of_open (he.open_of_file hknows.2.2)
          rw [hnew] at hr
          cases hr
        · exact inside_of_ne f d hpg
    | _ => rfl
  refine ⟨_, reachable_of_run (kill_all
    (Finset.univ.filter fun q => (s.kernel.proc q).killed = true).toList (Pipes.init data)
    fun _ => rfl), ?_, ?_, ?_, ?_, ?_⟩
  · exact Function.update_self ..
  · intro q
    simp [Pipes.init, State.makePipe, State.withFiles, State.goto]
  · intro q
    change Pipes.Pc.outside = ((((s.makePipe pg data).withFiles o u).goto p c).pc q).inside pg
    by_cases hq : q = p
    · subst hq
      rw [State.goto_self, hin]
    · rw [State.goto_of_ne hq]
      exact (hout q).symm
  · change [] = Function.update s.bytesIn pg [] pg
    rw [Function.update_self]
  · change [] = Function.update s.bytesOut pg [] pg
    rw [Function.update_self]

/-- A page comes into use only by a new pipe in it. -/
theorem made (hc : Core s) (he : Ends s) (hm : Move s a s') (hnew : s.pages pg = none)
    (hused : s'.pages pg ≠ none) :
    ∃ data t, Reachable Pipes.step Free (Pipes.init data) t ∧ Shows s' pg t := by
  have hother : ∀ {pg'} {q : Pipe}, s.pages pg' = some q → pg ≠ pg' := by
    rintro pg' q hq rfl
    rw [hnew] at hq
    cases hq
  cases hm with
  | @wrote p f pg' addr q q' hpc hq =>
      refine absurd ?_ hused
      exact (Function.update_of_ne (hother hq) _ _).trans hnew
  | @gaveUp p f pg' addr q q' rest hpc hq =>
      refine absurd ?_ hused
      exact (Function.update_of_ne (hother hq) _ _).trans hnew
  | @writeSleeps p f pg' addr q q' rest hpc hq =>
      refine absurd ?_ hused
      exact (Function.update_of_ne (hother hq) _ _).trans hnew
  | @took p f pg' n q q' bytes hpc hq =>
      refine absurd ?_ hused
      exact (Function.update_of_ne (hother hq) _ _).trans hnew
  | @shut p pg' writable q hpend hq =>
      refine absurd ?_ hused
      cases writable with
      | true => exact (Function.update_of_ne (hother hq) _ _).trans hnew
      | false => exact (Function.update_of_ne (hother hq) _ _).trans hnew
  | @piped p f0 f1 pg' data fd0 fd1 hpc =>
      by_cases hpg : pg = pg'
      · subst hpg
        exact ⟨data, of_make hnew hc he data rfl⟩
      · exact absurd ((Function.update_of_ne hpg _ _).trans hnew) hused
  | @noDescriptors p f0 f1 pg' data hpc =>
      by_cases hpg : pg = pg'
      · subst hpg
        exact ⟨data, of_make hnew hc he data rfl⟩
      · exact absurd ((Function.update_of_ne hpg _ _).trans hnew) hused
  | @kill p pid q =>
      refine absurd ?_ hused
      rw [Core.wake_eq]
      exact hnew
  | _ => exact absurd hnew hused

end Shows

/-! ## Every run -/

/-- Each pipe of the system is a pipe of the machine of one pipe. -/
theorem shows_of_reachable (h : Reachable step Free (boot : State Page) s) (pg : Page)
    (hpg : s.pages pg ≠ none) :
    ∃ data t, Reachable Pipes.step Free (Pipes.init data) t ∧ Shows s pg t := by
  have hall : (Core s ∧ Ends s) ∧ ∀ pg, s.pages pg ≠ none →
      ∃ data t, Reachable Pipes.step Free (Pipes.init data) t ∧ Shows s pg t := by
    refine h.invariant (P := fun s => (Core s ∧ Ends s) ∧ ∀ pg, s.pages pg ≠ none →
      ∃ data t, Reachable Pipes.step Free (Pipes.init data) t ∧ Shows s pg t)
      ⟨⟨core_boot, ends_boot⟩, fun _ hused => absurd rfl hused⟩ ?_
    rintro s a s' ⟨⟨hc, he⟩, hshows⟩ _ hs
    have hm := step_cases hc he hs
    refine ⟨⟨hc.step_of_move hm, he.step_of_move hc hm⟩, fun pg hused => ?_⟩
    by_cases hold : s.pages pg = none
    · exact Shows.made hc he hm hold hused
    · obtain ⟨data, t, ht, hst⟩ := hshows pg hold
      obtain ⟨bs, t', hrun, hst'⟩ := hst.step_of_move hc he hm hused hold
      exact ⟨data, t', ht.trans (reachable_of_run hrun), hst'⟩
  exact hall.2 pg hpg

end OsSolutions.Files
