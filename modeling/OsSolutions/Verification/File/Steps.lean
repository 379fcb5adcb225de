import OsSolutions.Verification.File.Places
import OsSolutions.Verification.Kernel.Lifecycle

/-! # The steps of the file machine, branch by branch

Where the invariants hold no branch ends in a fault. -/

namespace OsSolutions

/-- Whether the end is still open. -/
def Pipe.isOpen (q : Pipe) (writable : Bool) : Bool := if writable then q.writeopen else q.readopen

namespace Files

open Pointers Transition

variable {Page : Type}

namespace State

def isOpen (s : State Page) (e : Page × Bool) : Bool := (s.pages e.1).any fun q => q.isOpen e.2

/-- The files that stand for an end of a pipe, and those that are about to close it. -/
def owners [DecidableEq Page] (s : State Page) (e : Page × Bool) : ℕ :=
  count s.ftable.ends e + tally fun p => if (s.pc p).pend = some e then 1 else 0

end State

section

variable [DecidableEq Page] {s : State Page} {p : Fin NPROC}

/-- The invariant of the pipes: an open end belongs to one file, and no end is open twice. -/
structure Ends (s : State Page) : Prop where
  one : ∀ e, s.owners e = if s.isOpen e then 1 else 0
  used : ∀ pg q, s.pages pg = some q → q.readopen = true ∨ q.writeopen = true

theorem Ends.open_of_file (h : Ends s) {f : Fin NFILE} {e : Page × Bool}
    (he : s.ftable.ends f = some e) : s.isOpen e = true := by
  have hpos := count_pos he
  have hone := h.one e
  unfold State.owners at hone
  by_contra hclosed
  rw [if_neg hclosed] at hone
  omega

theorem Ends.open_of_pend (h : Ends s) {e : Page × Bool} (he : (s.pc p).pend = some e) :
    s.isOpen e = true := by
  have hle := le_tally (fun p => if (s.pc p).pend = some e then 1 else 0) p
  simp only [he, if_true] at hle
  have hone := h.one e
  unfold State.owners at hone
  by_contra hclosed
  rw [if_neg hclosed] at hone
  omega

omit [DecidableEq Page] in
theorem page_of_open {e : Page × Bool} (h : s.isOpen e = true) :
    ∃ q, s.pages e.1 = some q ∧ q.isOpen e.2 = true := by
  unfold State.isOpen at h
  cases hq : s.pages e.1 with
  | none =>
      rw [hq] at h
      cases h
  | some q =>
      rw [hq] at h
      exact ⟨q, rfl, h⟩

end

namespace State

variable [DecidableEq Page]

/-- The bytes that a section of `pipewrite` has put into the pipe. -/
def wrote (s : State Page) (pg : Page) (q : Pipe) (addr : List UInt8) (e : WriteEnd) :
    State Page :=
  (s.setPage pg (some q)).accept pg (addr.take (addr.length - e.rest.length))

/-- The bytes that a section of `piperead` has taken out of the pipe. -/
def took (s : State Page) (pg : Page) (q : Pipe) (bytes : List UInt8) : State Page :=
  (s.setPage pg (some q)).deliver pg bytes

/-- The page behind a `pipeclose`, and the sleepers on the other side awake. -/
def shut (s : State Page) (pg : Page) (writable : Bool) (q : Pipe) : State Page :=
  let s := s.setPage pg
    (if (pipeclose writable q).2 then none else some (pipeclose writable q).1)
  if writable then s.wakeReaders pg else s.wakeWriters pg

end State

/-- The place with the call of `pipeclose` behind it. -/
def Pc.settled : Pc Page → Pc Page
  | .closing _ f0 f1 => .closing none f0 f1
  | .exitClosing fd _ => .exitClosing fd none
  | c => c

/-- A file to be closed at a place, and where the process goes on behind its critical section. -/
inductive Due : Pc Page → Fin NFILE → (Option (Page × Bool) → Pc Page) → Prop
  | first {f0 f1} : Due (.closing none (some f0) f1) f0 fun e => .closing e none f1
  | second {f1} : Due (.closing none none (some f1)) f1 fun e => .closing e none none

/-- The ways through `step` without a fault. -/
inductive Move [DecidableEq Page] (s : State Page) : Act Page → State Page → Prop
  | stay {a} : Move s a s
  | dup {p fd fd' f} : s.Ready p → s.ofile p fd = some f → s.ofile p fd' = none →
      Move s (.dup p fd) (s.withFiles (s.ofile.set p fd' (some f))
        (s.ftable.setRef f ((s.ftable f).ref + 1)))
  | close {p fd f t e} : s.Ready p → s.ofile p fd = some f → s.ftable.Closed f t e →
      Move s (.close p fd) ((s.withFiles (s.ofile.set p fd none) t).goto p (.closing e none none))
  | callRead {p fd f pg n} : s.Ready p → s.ofile p fd = some f →
      s.ftable.ends f = some (pg, false) →
      Move s (.read p fd n) (s.goto p (.inPipe f pg (.read n)))
  | callWrite {p fd f pg addr} : s.Ready p → s.ofile p fd = some f →
      s.ftable.ends f = some (pg, true) →
      Move s (.write p fd addr) (s.goto p (.inPipe f pg (.write addr)))
  | callInode {p fd f addr} : s.Ready p → s.ofile p fd = some f →
      Move s (.write p fd addr) (s.goto p (.inInode f addr.length))
  | writesOn {p f n m fails} : s.pc p = .inInode f n →
      Move s (.writei p fails) (s.goto p (.inInode f m))
  | written {p f n fails} : s.pc p = .inInode f n → Move s (.writei p fails) (s.goto p .user)
  | wrote {p f pg addr q q'} : s.pc p = .inPipe f pg (.write addr) → s.pages pg = some q →
      pipewrite (s.kernel.proc p).killed addr q = (q', .returned) →
      Move s (.run p) (((s.wrote pg q' addr .returned).wakeReaders pg).goto p .user)
  | gaveUp {p f pg addr q q' rest} : s.pc p = .inPipe f pg (.write addr) →
      s.pages pg = some q → pipewrite (s.kernel.proc p).killed addr q = (q', .failed rest) →
      Move s (.run p) ((s.wrote pg q' addr (.failed rest)).goto p .user)
  | writeSleeps {p f pg addr q q' rest} : s.pc p = .inPipe f pg (.write addr) →
      s.pages pg = some q → pipewrite (s.kernel.proc p).killed addr q = (q', .asleep rest) →
      Move s (.run p) (((s.wrote pg q' addr (.asleep rest)).wakeReaders pg).goto p
        (.inPipe f pg (.writeAsleep rest)))
  | took {p f pg n q q' bytes} : s.pc p = .inPipe f pg (.read n) → s.pages pg = some q →
      piperead (s.kernel.proc p).killed n q = (q', .returned bytes) →
      Move s (.run p) (((s.took pg q' bytes).wakeWriters pg).goto p .user)
  | readFails {p f pg n q q'} : s.pc p = .inPipe f pg (.read n) → s.pages pg = some q →
      piperead (s.kernel.proc p).killed n q = (q', .failed) → Move s (.run p) (s.goto p .user)
  | readSleeps {p f pg n q q'} : s.pc p = .inPipe f pg (.read n) → s.pages pg = some q →
      piperead (s.kernel.proc p).killed n q = (q', .asleep) →
      Move s (.run p) (s.goto p (.inPipe f pg (.readAsleep n)))
  | firstFile {p f0} : s.Ready p → (s.ftable f0).ref = 0 →
      Move s (.pipe p) ((s.withFiles s.ofile (s.ftable.setRef f0 1)).goto p (.pipealloc f0 none))
  | secondFile {p f0 f1} : s.pc p = .pipealloc f0 none → (s.ftable f1).ref = 0 →
      Move s (.run p) ((s.withFiles s.ofile (s.ftable.setRef f1 1)).goto p
        (.pipealloc f0 (some f1)))
  | noFile {p f0} : s.pc p = .pipealloc f0 none →
      Move s (.run p) (s.goto p (.closing none (some f0) none))
  | noPage {p f0 f1} : s.pc p = .pipealloc f0 (some f1) →
      Move s (.kalloc p none) (s.goto p (.closing none (some f0) (some f1)))
  | piped {p f0 f1 pg data fd0 fd1} : s.pc p = .pipealloc f0 (some f1) → s.pages pg = none →
      s.ofile p fd0 = none → (s.ofile.set p fd0 (some f0)) p fd1 = none →
      Move s (.kalloc p (some (pg, data)))
        (((s.makePipe pg data).withFiles
          ((s.ofile.set p fd0 (some f0)).set p fd1 (some f1))
          ((s.ftable.modify f0 fun x => x.asPipe pg false).modify f1 fun x =>
            x.asPipe pg true)).goto p .user)
  | noDescriptors {p f0 f1 pg data} : s.pc p = .pipealloc f0 (some f1) → s.pages pg = none →
      Move s (.kalloc p (some (pg, data)))
        (((s.makePipe pg data).withFiles s.ofile
          ((s.ftable.modify f0 fun x => x.asPipe pg false).modify f1 fun x =>
            x.asPipe pg true)).goto p (.closing none (some f0) (some f1)))
  | opens {p omode f fd} : s.Ready p → (s.ftable f).ref = 0 → s.ofile p fd = none →
      Move s (.openFile p omode) ((s.withFiles (s.ofile.set p fd (some f))
        (s.ftable.setRef f 1)).goto p (.opened f omode))
  | noDescriptor {p omode f} : s.Ready p → (s.ftable f).ref = 0 →
      Move s (.openFile p omode) ((s.withFiles s.ofile (s.ftable.setRef f 1)).goto p
        (.closing none (some f) none))
  | opened {p f omode} : s.pc p = .opened f omode →
      Move s (.run p) ((s.withFiles s.ofile (s.ftable.modify f fun x => x.asInode omode)).goto p
        .user)
  | shut {p pg writable q} : (s.pc p).pend = some (pg, writable) → s.pages pg = some q →
      Move s (.run p) ((s.shut pg writable q).goto p (s.pc p).settled)
  | closeHeld {p f next t e} : Due (s.pc p) f next → s.ftable.Closed f t e →
      Move s (.run p) ((s.withFiles s.ofile t).goto p (next e))
  | closed {p} : s.pc p = .closing none none none → Move s (.run p) (s.goto p .user)
  | fork {p np} : s.Ready p → (s.kernel.proc np).state = .unused →
      Move s (.fork p) ((s.withKernel (s.kernel.embryo np)).goto p (.allocated np))
  | copied {p np} : s.pc p = .allocated np →
      Move s (.copyuvm p true) ((s.withKernel (s.kernel.modify np fun x =>
        { x with parent := some p })).goto p (.forking np 0))
  | notCopied {p np} : s.pc p = .allocated np →
      Move s (.copyuvm p false) ((s.withKernel (s.kernel.release np)).goto p .user)
  | forkSkips {p np i} (hi : i < NOFILE) : s.pc p = .forking np i → s.ofile p ⟨i, hi⟩ = none →
      Move s (.run p) (s.goto p (.forking np (i + 1)))
  | forkDups {p np i f} (hi : i < NOFILE) : s.pc p = .forking np i →
      s.ofile p ⟨i, hi⟩ = some f →
      Move s (.run p) ((s.withFiles (s.ofile.set np ⟨i, hi⟩ (some f))
        (s.ftable.setRef f ((s.ftable f).ref + 1))).goto p (.forking np (i + 1)))
  | forked {p np i} : NOFILE ≤ i → s.pc p = .forking np i →
      Move s (.run p) ((s.withKernel (s.kernel.modify np fun x =>
        { x with state := .runnable })).goto p .user)
  | exit {p} : s.Ready p → Move s (.exit p) (s.goto p (.exiting 0))
  | exitSkips {p fd} (hfd : fd < NOFILE) : s.pc p = .exiting fd →
      s.ofile p ⟨fd, hfd⟩ = none → Move s (.run p) (s.goto p (.exiting (fd + 1)))
  | exitCloses {p fd f t e} (hfd : fd < NOFILE) : s.pc p = .exiting fd →
      s.ofile p ⟨fd, hfd⟩ = some f → s.ftable.Closed f t e →
      Move s (.run p) ((s.withFiles s.ofile t).goto p (.exitClosing ⟨fd, hfd⟩ e))
  | exitClears {p fd} : s.pc p = .exitClosing fd none →
      Move s (.run p) ((s.withFiles (s.ofile.set p fd none) s.ftable).goto p
        (.exiting (fd + 1)))
  | exited {p fd} : NOFILE ≤ fd → s.pc p = .exiting fd →
      Move s (.run p) ((s.withKernel ((s.kernel.reparent p).modify p fun x =>
        { x with state := .zombie })).goto p .user)
  | wait {p np} : s.Ready p → (s.kernel.proc np).state = .zombie →
      Move s (.wait p) (s.withKernel (s.kernel.modify np fun x =>
        { x with pid := 0, parent := none, killed := false, state := .unused }))
  | kill {p pid q} : Move s (.kill p pid) ((s.withKernel (s.kernel.modify q fun x =>
      { x with killed := true, state := if x.state = .sleeping then .runnable else x.state })).wake
        q)

/-! ## The functions of the machine -/

variable {s s' : State Page} {a : Act Page} {p : Fin NPROC}

theorem closeFile_eq (h : ∀ f, (s.ftable f).Good) {f : Fin NFILE} (hpos : 0 < (s.ftable f).ref)
    (next : Option (Page × Bool) → Pc Page) :
    ∃ t e, s.ftable.Closed f t e ∧
      s.closeFile p f next = (s.withFiles s.ofile t).goto p (next e) := by
  by_cases hone : (s.ftable f).ref = 1
  · refine ⟨_, _, .last hone, ?_⟩
    have hclose : s.ftable.fileclose f =
        some (s.ftable.release f, some { s.ftable f with ref := (s.ftable f).ref - 1 }) := by
      rw [FTable.fileclose, if_neg (by omega), if_neg (by omega)]
      rfl
    unfold State.closeFile
    rw [hclose]
    dsimp only
    cases htype : (s.ftable f).type with
    | pipe =>
        obtain ⟨pg, hpg, hend⟩ := (h f).pipeEnd htype
        rw [hpg]
        dsimp only
        rw [FTable.ends, hend]
    | none | inode =>
        dsimp only
        rw [FTable.ends, File.pipeEnd_of_type (by simp [htype])]
  · refine ⟨_, _, .shared (by omega), ?_⟩
    have hclose : s.ftable.fileclose f =
        some (s.ftable.setRef f ((s.ftable f).ref - 1), none) := by
      rw [FTable.fileclose, if_neg (by omega), if_pos (by omega)]
      rfl
    unfold State.closeFile
    rw [hclose]

theorem closePipe_eq [DecidableEq Page] {pg : Page} {q : Pipe} (hq : s.pages pg = some q)
    (writable : Bool) (c : Pc Page) :
    s.closePipe p pg writable c = (s.shut pg writable q).goto p c := by
  unfold State.closePipe
  rw [hq]
  rfl

/-- The search of `wait` for an exited child. -/
theorem wait_cases {k k' : Kernel} {r : ℤ} (h : k.wait p = some (k', r)) :
    k' = k ∨ ∃ np, (k.proc np).state = .zombie ∧ k' = k.modify np fun x =>
      { x with pid := 0, parent := none, killed := false, state := .unused } := by
  unfold Kernel.wait at h
  split at h
  · rename_i np hfind
    obtain ⟨rfl, _⟩ := Prod.mk.inj (Option.some.inj h)
    have hfound := List.find?_some hfind
    simp only [decide_eq_true_eq] at hfound
    exact .inr ⟨np, hfound.2, rfl⟩
  · obtain ⟨_, heq⟩ := Option.ite_none_right_eq_some.mp h
    obtain ⟨rfl, _⟩ := Prod.mk.inj (Option.some.inj heq)
    exact .inl rfl

theorem allocproc_cases (k : Kernel) : k.allocproc true = (k, none) ∨
    ∃ np, (k.proc np).state = .unused ∧ k.allocproc true = (k.embryo np, some np) := by
  unfold Kernel.allocproc
  split
  · exact .inl rfl
  · rename_i np hfind
    exact .inr ⟨np, by simpa using List.find?_some hfind, rfl⟩

/-! ## Inversion -/

variable [DecidableEq Page]

omit [DecidableEq Page] in
theorem ready_stale (hp : s.Ready p) : (s.pc p).stale = none := by
  rw [hp.2]
  rfl

omit [DecidableEq Page] in
/-- The type of a file behind a descriptor, outside of a call. -/
theorem Core.typed (h : Core s) (hp : s.Ready p) {fd : Fin NOFILE} {f : Fin NFILE}
    (hfd : s.ofile p fd = some f) : (s.ftable f).type ≠ .none :=
  h.type_ne_none (p := p) (by simp [hp.2]) (by rw [Pc.live_of_stale (ready_stale hp), hfd])

theorem dup_cases (h : Core s) (hp : s.Ready p) {fd : Fin NOFILE} {f : Fin NFILE}
    (hfd : s.ofile p fd = some f) : Move s (.dup p fd) (s.dup p f) := by
  unfold State.dup
  cases halloc : s.ofile.fdalloc p f with
  | none => exact .stay
  | some x =>
      obtain ⟨o, fd'⟩ := x
      obtain ⟨hfree, rfl⟩ := OFile.fdalloc_some halloc
      rw [FTable.filedup_of_pos (h.ref_pos (ready_stale hp) hfd)]
      exact .dup hp hfd hfree

theorem read_cases (h : Core s) (hp : s.Ready p) {fd : Fin NOFILE} {f : Fin NFILE}
    (hfd : s.ofile p fd = some f) (n : ℕ) :
    Move s (.read p fd n) (s.transfer p f (.read n) s (s.ftable f).fileread) := by
  rcases File.dispatch_cases (h.good f) (h.typed hp hfd) (s.ftable f).readable with
    heq | heq | ⟨hread, pg, heq, hend, hflag⟩
  · rw [File.fileread, heq]
    exact .stay
  · rw [File.fileread, heq]
    exact .stay
  · rw [File.fileread, heq]
    have hside : (s.ftable f).writable = false := by simpa [hread] using hflag
    exact .callRead hp hfd (by rw [FTable.ends, hend, hside])

theorem write_cases (h : Core s) (hp : s.Ready p) {fd : Fin NOFILE} {f : Fin NFILE}
    (hfd : s.ofile p fd = some f) (addr : List UInt8) :
    Move s (.write p fd addr) (s.transfer p f (.write addr) (s.goto p (.inInode f addr.length))
      (s.ftable f).filewrite) := by
  rcases File.dispatch_cases (h.good f) (h.typed hp hfd) (s.ftable f).writable with
    heq | heq | ⟨hwrite, pg, heq, hend, _⟩
  · rw [File.filewrite, heq]
    exact .stay
  · rw [File.filewrite, heq]
    exact .callInode hp hfd
  · rw [File.filewrite, heq]
    exact .callWrite hp hfd (by rw [FTable.ends, hend, hwrite])

/-- What `writei` does not take it does not report, so no write is short. -/
theorem writei_cases {f : Fin NFILE} {n : ℕ} (hpc : s.pc p = .inInode f n) (fails : Bool) :
    Move s (.writei p fails) (s.runInode p f n fails) := by
  unfold State.runInode
  split
  · cases fails with
    | true => exact .written hpc
    | false =>
        have hall : ∀ k, writei false k = k := fun _ => rfl
        dsimp only
        rw [hall, if_neg (not_lt.mpr (Int.natCast_nonneg _)), if_neg (not_not_intro rfl)]
        exact .writesOn hpc
  · exact .written hpc

theorem kalloc_cases {f0 f1 : Fin NFILE} (hpc : s.pc p = .pipealloc f0 (some f1))
    {page : Option (Page × (Fin PIPESIZE → UInt8))} (hpage : ∀ x ∈ page, s.pages x.1 = none) :
    Move s (.kalloc p page) (s.finishPipe p f0 f1 page) := by
  cases page with
  | none => exact .noPage hpc
  | some x =>
      obtain ⟨pg, data⟩ := x
      have hnew : s.pages pg = none := hpage _ rfl
      unfold State.finishPipe
      dsimp only
      cases hfirst : s.ofile.fdalloc p f0 with
      | none =>
          rw [show ((s.makePipe pg data).withFiles s.ofile _).ofile = s.ofile from rfl, hfirst]
          exact .noDescriptors hpc hnew
      | some x =>
          obtain ⟨o, fd0⟩ := x
          obtain ⟨hfree, rfl⟩ := OFile.fdalloc_some hfirst
          rw [show ((s.makePipe pg data).withFiles s.ofile _).ofile = s.ofile from rfl, hfirst]
          dsimp only
          cases hsecond : (s.ofile.set p fd0 (some f0)).fdalloc p f1 with
          | none =>
              dsimp only
              rw [OFile.set_set, OFile.set_eq_self hfree]
              exact .noDescriptors hpc hnew
          | some x =>
              obtain ⟨o, fd1⟩ := x
              obtain ⟨hfree', rfl⟩ := OFile.fdalloc_some hsecond
              exact .piped hpc hnew hfree hfree'

theorem openFile_cases (hp : s.Ready p) (omode : UInt32) :
    Move s (.openFile p omode) (s.openFile p omode) := by
  unfold State.openFile
  cases hfile : s.ftable.filealloc with
  | none => exact .stay
  | some x =>
      obtain ⟨t, f⟩ := x
      obtain ⟨hzero, rfl⟩ := FTable.filealloc_some hfile
      dsimp only
      cases hfd : s.ofile.fdalloc p f with
      | none => exact .noDescriptor hp hzero
      | some x =>
          obtain ⟨o, fd⟩ := x
          obtain ⟨hfree, rfl⟩ := OFile.fdalloc_some hfd
          exact .opens hp hzero hfree

theorem runPipe_cases (he : Ends s) {f : Fin NFILE} {pg : Page} {c : Pipes.Pc}
    (hpc : s.pc p = .inPipe f pg c) (hend : s.ftable.ends f = some (pg, decide c.Writes))
    (hs : s.runPipe p f pg c = some s') : Move s (.run p) s' := by
  obtain ⟨q, hq, _⟩ := page_of_open (he.open_of_file hend)
  change s.pages pg = some q at hq
  cases c with
  | outside | writeAsleep | readAsleep => simp [State.runPipe, hq] at hs
  | write addr =>
      simp only [State.runPipe, hq] at hs
      cases hw : pipewrite (s.kernel.proc p).killed addr q with
      | mk q' e =>
          rw [hw] at hs
          cases e with
          | returned =>
              obtain rfl := Option.some.inj hs
              exact .wrote hpc hq hw
          | failed rest =>
              obtain rfl := Option.some.inj hs
              exact .gaveUp hpc hq hw
          | asleep rest =>
              obtain rfl := Option.some.inj hs
              exact .writeSleeps hpc hq hw
  | read n =>
      simp only [State.runPipe, hq] at hs
      cases hr : piperead (s.kernel.proc p).killed n q with
      | mk q' e =>
          rw [hr] at hs
          cases e with
          | returned bytes =>
              obtain rfl := Option.some.inj hs
              exact .took hpc hq hr
          | failed =>
              obtain rfl := Option.some.inj hs
              exact .readFails hpc hq hr
          | asleep =>
              obtain rfl := Option.some.inj hs
              exact .readSleeps hpc hq hr

theorem runFork_cases (h : Core s) {np : Fin NPROC} {i : ℕ} (hpc : s.pc p = .forking np i) :
    Move s (.run p) (s.runFork p np i) := by
  unfold State.runFork
  split
  · rename_i hi
    cases hfd : s.ofile p ⟨i, hi⟩ with
    | none => exact .forkSkips hi hpc hfd
    | some f =>
        dsimp only
        rw [FTable.filedup_of_pos (h.ref_pos (by rw [hpc]; rfl) hfd)]
        exact .forkDups hi hpc hfd
  · rename_i hi
    exact .forked (not_lt.mp hi) hpc

theorem runExit_cases (h : Core s) {fd : ℕ} (hpc : s.pc p = .exiting fd) :
    Move s (.run p) (s.runExit p fd) := by
  unfold State.runExit
  split
  · rename_i hlt
    cases hfd : s.ofile p ⟨fd, hlt⟩ with
    | none => exact .exitSkips hlt hpc hfd
    | some f =>
        dsimp only
        obtain ⟨t, e, hclosed, heq⟩ := closeFile_eq (p := p) h.good
          (h.ref_pos (by rw [hpc]; rfl) hfd) (.exitClosing ⟨fd, hlt⟩)
        rw [heq]
        exact .exitCloses hlt hpc hfd hclosed
  · rename_i hlt
    exact .exited (not_lt.mp hlt) hpc

/-- A file in the variables of a call is closed. -/
theorem closeHeld_cases (h : Core s) {f : Fin NFILE} {next : Option (Page × Bool) → Pc Page}
    (hdue : Due (s.pc p) f next) : Move s (.run p) (s.closeFile p f next) := by
  have hpos : 0 < weight (s.ofile p) (s.pc p) f := by
    generalize s.pc p = c at hdue ⊢
    cases hdue with
    | first => simp [weight, Pc.held]
    | second => simp [weight, Pc.held]
  obtain ⟨t, e, hclosed, heq⟩ := closeFile_eq (p := p) h.good
    (hpos.trans_le (h.weight_le p f)) next
  rw [heq]
  exact .closeHeld hdue hclosed

theorem run_cases (h : Core s) (he : Ends s) (hs : s.run p = some s') : Move s (.run p) s' := by
  have hknows := (h.place p).knows
  unfold State.run at hs
  cases hpc : s.pc p with
  | user => simp [hpc] at hs
  | allocated np => simp [hpc] at hs
  | inInode f n => simp [hpc] at hs
  | inPipe f pg c =>
      rw [hpc] at hs hknows
      exact runPipe_cases he hpc hknows.2.2 hs
  | pipealloc f0 f1 =>
      cases f1 with
      | some f1 => simp [hpc] at hs
      | none =>
          rw [hpc] at hs
          dsimp only at hs
          cases hfile : s.ftable.filealloc with
          | none =>
              rw [hfile] at hs
              obtain rfl := Option.some.inj hs
              exact .noFile hpc
          | some x =>
              obtain ⟨t, f1⟩ := x
              obtain ⟨hzero, rfl⟩ := FTable.filealloc_some hfile
              rw [hfile] at hs
              obtain rfl := Option.some.inj hs
              exact .secondFile hpc hzero
  | opened f omode =>
      rw [hpc] at hs
      obtain rfl := Option.some.inj hs
      exact .opened hpc
  | closing e f0 f1 =>
      cases e with
      | some e =>
          obtain ⟨pg, writable⟩ := e
          rw [hpc] at hs
          obtain rfl := Option.some.inj hs
          have hpend : (s.pc p).pend = some (pg, writable) := by rw [hpc]; rfl
          obtain ⟨q, hq, _⟩ := page_of_open (he.open_of_pend hpend)
          change s.pages pg = some q at hq
          rw [closePipe_eq hq]
          have hmove := Move.shut hpend hq
          rwa [hpc] at hmove
      | none =>
          cases f0 with
          | some f0 =>
              rw [hpc] at hs
              obtain rfl := Option.some.inj hs
              exact closeHeld_cases h (hpc ▸ .first)
          | none =>
              cases f1 with
              | some f1 =>
                  rw [hpc] at hs
                  obtain rfl := Option.some.inj hs
                  exact closeHeld_cases h (hpc ▸ .second)
              | none =>
                  rw [hpc] at hs
                  obtain rfl := Option.some.inj hs
                  exact .closed hpc
  | forking np i =>
      rw [hpc] at hs
      obtain rfl := Option.some.inj hs
      exact runFork_cases h hpc
  | exiting fd =>
      rw [hpc] at hs
      obtain rfl := Option.some.inj hs
      exact runExit_cases h hpc
  | exitClosing fd e =>
      cases e with
      | none =>
          rw [hpc] at hs
          obtain rfl := Option.some.inj hs
          exact .exitClears hpc
      | some e =>
          obtain ⟨pg, writable⟩ := e
          rw [hpc] at hs
          obtain rfl := Option.some.inj hs
          have hpend : (s.pc p).pend = some (pg, writable) := by rw [hpc]; rfl
          obtain ⟨q, hq, _⟩ := page_of_open (he.open_of_pend hpend)
          change s.pages pg = some q at hq
          rw [closePipe_eq hq]
          have hmove := Move.shut hpend hq
          rwa [hpc] at hmove

theorem step_cases (h : Core s) (he : Ends s) (hs : step s a = some s') : Move s a s' := by
  unfold step at hs
  rw [if_neg (by simp [h.fault])] at hs
  cases a with
  | dup p fd =>
      obtain ⟨hp, heq⟩ := Option.ite_none_right_eq_some.mp hs
      obtain rfl := Option.some.inj heq
      cases hfd : s.ofile p fd with
      | none => exact .stay
      | some f => exact dup_cases h hp hfd
  | close p fd =>
      obtain ⟨hp, heq⟩ := Option.ite_none_right_eq_some.mp hs
      obtain rfl := Option.some.inj heq
      cases hfd : s.ofile p fd with
      | none => exact .stay
      | some f =>
          obtain ⟨t, e, hclosed, heq⟩ := closeFile_eq (p := p)
            (s := s.withFiles (s.ofile.set p fd none) s.ftable) h.good
            (h.ref_pos (ready_stale hp) hfd) (.closing · none none)
          dsimp only [Option.elim]
          rw [heq]
          exact .close hp hfd hclosed
  | read p fd n =>
      obtain ⟨hp, heq⟩ := Option.ite_none_right_eq_some.mp hs
      obtain rfl := Option.some.inj heq
      cases hfd : s.ofile p fd with
      | none => exact .stay
      | some f => exact read_cases h hp hfd n
  | write p fd addr =>
      obtain ⟨hp, heq⟩ := Option.ite_none_right_eq_some.mp hs
      obtain rfl := Option.some.inj heq
      cases hfd : s.ofile p fd with
      | none => exact .stay
      | some f => exact write_cases h hp hfd addr
  | writei p fails =>
      dsimp only at hs
      split at hs
      · rename_i f n hpc
        obtain rfl := Option.some.inj hs
        exact writei_cases hpc fails
      · cases hs
  | pipe p =>
      obtain ⟨hp, heq⟩ := Option.ite_none_right_eq_some.mp hs
      obtain rfl := Option.some.inj heq
      cases hfile : s.ftable.filealloc with
      | none => exact .stay
      | some x =>
          obtain ⟨t, f0⟩ := x
          obtain ⟨hzero, rfl⟩ := FTable.filealloc_some hfile
          exact .firstFile hp hzero
  | kalloc p page =>
      dsimp only at hs
      split at hs
      · rename_i f0 f1 hpc
        obtain ⟨hpage, heq⟩ := Option.ite_none_right_eq_some.mp hs
        obtain rfl := Option.some.inj heq
        exact kalloc_cases hpc hpage
      · cases hs
  | openFile p omode =>
      obtain ⟨hp, heq⟩ := Option.ite_none_right_eq_some.mp hs
      obtain rfl := Option.some.inj heq
      exact openFile_cases hp omode
  | fork p =>
      obtain ⟨hp, heq⟩ := Option.ite_none_right_eq_some.mp hs
      rcases allocproc_cases s.kernel with halloc | ⟨np, hunused, halloc⟩
      · rw [halloc] at heq
        obtain rfl := Option.some.inj heq
        exact .stay
      · rw [halloc] at heq
        obtain rfl := Option.some.inj heq
        exact .fork hp hunused
  | copyuvm p ok =>
      dsimp only at hs
      split at hs
      · rename_i np hpc
        cases ok with
        | true =>
            obtain rfl := Option.some.inj hs
            exact .copied hpc
        | false =>
            obtain rfl := Option.some.inj hs
            exact .notCopied hpc
      · cases hs
  | exit p =>
      obtain ⟨hp, heq⟩ := Option.ite_none_right_eq_some.mp hs
      obtain rfl := Option.some.inj heq
      exact .exit hp.1
  | wait p =>
      obtain ⟨hp, heq⟩ := Option.ite_none_right_eq_some.mp hs
      obtain ⟨⟨k, r⟩, hwait, rfl⟩ := Option.map_eq_some_iff.mp heq
      rcases wait_cases hwait with rfl | ⟨np, hzombie, rfl⟩
      · exact .stay
      · exact .wait hp hzombie
  | kill p pid =>
      obtain ⟨_, heq⟩ := Option.ite_none_right_eq_some.mp hs
      obtain rfl := Option.some.inj heq
      unfold State.kill
      split
      · exact .stay
      · rename_i q hfind
        have hk : (s.kernel.kill pid).1 = s.kernel.modify q fun x =>
            { x with
              killed := true
              state := if x.state = .sleeping then .runnable else x.state } := by
          rw [Kernel.kill, hfind]
        rw [hk]
        exact .kill
  | run p => exact run_cases h he hs

end Files

end OsSolutions
