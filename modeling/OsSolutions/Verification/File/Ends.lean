import OsSolutions.Verification.File.References
import OsSolutions.Verification.Pipe.Buffer

/-! # The ends of the pipes

An end of a pipe is open exactly as long as there is a file for it, or a process that is about to
close it. So a page is given back once, and behind its last use. -/

namespace OsSolutions

/-- Sections of the calls leave the flags alone. -/
theorem pipewrite_ends (killed : Bool) (addr : List UInt8) (q : Pipe) :
    q.SameEnds (pipewrite killed addr q).1 := by
  induction addr generalizing q with
  | nil => exact ⟨rfl, rfl⟩
  | cons c cs ih =>
      rw [pipewrite]
      split
      · split <;> exact ⟨rfl, rfl⟩
      · have hput : q.SameEnds (q.put c) := ⟨rfl, rfl⟩
        exact hput.trans (ih (q.put c))

theorem copyOut_ends (n : ℕ) (q : Pipe) : q.SameEnds (copyOut n q).1 := by
  induction n generalizing q with
  | zero => exact ⟨rfl, rfl⟩
  | succ n ih =>
      rw [copyOut]
      split
      · exact ⟨rfl, rfl⟩
      · have hdrop : q.SameEnds q.drop := ⟨rfl, rfl⟩
        exact hdrop.trans (ih q.drop)

theorem piperead_ends (killed : Bool) (n : ℕ) (q : Pipe) :
    q.SameEnds (piperead killed n q).1 := by
  unfold piperead
  split
  · split <;> exact ⟨rfl, rfl⟩
  · exact copyOut_ends n q

theorem Pipe.SameEnds.isOpen {q q' : Pipe} (h : q.SameEnds q') (writable : Bool) :
    q'.isOpen writable = q.isOpen writable := by
  rw [Pipe.isOpen, Pipe.isOpen, h.readopen, h.writeopen]

/-- What `pipeclose` does to the flags, and when it gives the page back. -/
theorem pipeclose_isOpen (writable : Bool) (q : Pipe) (w : Bool) :
    (pipeclose writable q).1.isOpen w = (q.isOpen w && w != writable) := by
  cases writable <;> cases w <;> simp [pipeclose, Pipe.isOpen]

theorem pipeclose_free (writable : Bool) (q : Pipe) :
    (pipeclose writable q).2 = !q.isOpen (!writable) := by
  cases writable <;> simp [pipeclose, Pipe.isOpen]

namespace Files

open Pointers Transition

variable {Page : Type} [DecidableEq Page] {s s' : State Page} {a : Act Page} {p : Fin NPROC}

namespace Ends

/-! ## Rules -/

theorem congr (h : Ends s) (hends : s'.ftable.ends = s.ftable.ends)
    (hpend : ∀ p, (s'.pc p).pend = (s.pc p).pend) (hpages : s'.pages = s.pages) : Ends s' := by
  constructor
  · intro e
    have howners : s'.owners e = s.owners e := by
      rw [State.owners, State.owners, hends]
      exact congrArg _ (tally_congr fun p => by rw [hpend p])
    rw [howners, h.one e, State.isOpen, State.isOpen, hpages]
  · rw [hpages]
    exact h.used

/-- The files lose what the process has to close then, and the other way round. -/
theorem files (h : Ends s) {o : OFile} {t : FTable Page} {c : Pc Page}
    (hcount : ∀ e, count t.ends e + (if c.pend = some e then 1 else 0) =
      count s.ftable.ends e + if (s.pc p).pend = some e then 1 else 0) :
    Ends ((s.withFiles o t).goto p c) := by
  constructor
  · intro e
    have htally := tally_of_eq_off (f := fun q => if (s.pc q).pend = some e then 1 else 0)
      (g := fun q => if (((s.withFiles o t).goto p c).pc q).pend = some e then 1 else 0) p
      fun q hq => by rw [State.goto_of_ne hq]; rfl
    rw [State.goto_self] at htally
    have hc := hcount e
    have hone := h.one e
    unfold State.owners at hone ⊢
    change count t.ends e + _ = if s.isOpen e then 1 else 0
    omega
  · exact h.used

theorem goto (h : Ends s) {c : Pc Page} (hpend : c.pend = (s.pc p).pend) : Ends (s.goto p c) := by
  refine h.congr rfl (fun q => ?_) rfl
  by_cases hq : q = p
  · subst hq
    rw [State.goto_self, hpend]
  · rw [State.goto_of_ne hq]

theorem setRef (h : Ends s) {o : OFile} {f : Fin NFILE} {n : ℕ} {c : Pc Page}
    (hpend : c.pend = (s.pc p).pend) :
    Ends ((s.withFiles o (s.ftable.setRef f n)).goto p c) := by
  refine h.files fun e => ?_
  rw [FTable.ends_setRef, hpend]

theorem closed (h : Ends s) {o : OFile} {f : Fin NFILE} {t : FTable Page} {c : Pc Page}
    {e : Option (Page × Bool)} (hclosed : s.ftable.Closed f t e)
    (hold : (s.pc p).pend = none) (hnew : c.pend = e) :
    Ends ((s.withFiles o t).goto p c) := by
  refine h.files fun x => ?_
  rw [hold, hnew, if_neg (show ¬ none = some x by simp)]
  exact hclosed.count x

theorem woken (h : Ends s) {pc : Fin NPROC → Pc Page} (hw : ∀ p, Core.Woken (s.pc p) (pc p)) :
    Ends { s with pc := pc } :=
  h.congr rfl (fun p => (hw p).pend) rfl

theorem wakeReaders (h : Ends s) (pg : Page) : Ends (s.wakeReaders pg) :=
  h.woken fun p =>
    Core.woken_mapPipe Core.wokenReader_writes Core.wokenReader_outside pg (s.pc p)

theorem wakeWriters (h : Ends s) (pg : Page) : Ends (s.wakeWriters pg) :=
  h.woken fun p =>
    Core.woken_mapPipe Core.wokenWriter_writes Core.wokenWriter_outside pg (s.pc p)

theorem wake (h : Ends s) (p : Fin NPROC) : Ends (s.wake p) := by
  rw [Core.wake_eq]
  exact h.woken (Core.woken_wake s p)

theorem withKernel (h : Ends s) (k : Kernel) : Ends (s.withKernel k) :=
  h.congr rfl (fun _ => rfl) rfl

/-- A section of a call on the pipe. -/
theorem setPage (h : Ends s) {pg : Page} {q q' : Pipe} (hq : s.pages pg = some q)
    (hends : q.SameEnds q') : Ends (s.setPage pg (some q')) := by
  have hopen : ∀ e, (s.setPage pg (some q')).isOpen e = s.isOpen e := by
    intro e
    by_cases he : e.1 = pg
    · simp only [State.isOpen, State.setPage, he, Function.update_self, hq,
        Option.any_some]
      exact hends.isOpen e.2
    · simp [State.isOpen, State.setPage, he]
  constructor
  · intro e
    rw [hopen]
    exact h.one e
  · intro pg' r hr
    by_cases hpg : pg' = pg
    · subst hpg
      obtain rfl : q' = r := by simpa [State.setPage] using hr
      rw [hends.readopen, hends.writeopen]
      exact h.used pg' q hq
    · exact h.used pg' r (by simpa [State.setPage, hpg] using hr)

theorem wrote (h : Ends s) {pg : Page} {q q' : Pipe} (hq : s.pages pg = some q)
    (hends : q.SameEnds q') (addr : List UInt8) (e : WriteEnd) :
    Ends (s.wrote pg q' addr e) :=
  (h.setPage hq hends).congr rfl (fun _ => rfl) rfl

theorem took (h : Ends s) {pg : Page} {q q' : Pipe} (hq : s.pages pg = some q)
    (hends : q.SameEnds q') (bytes : List UInt8) : Ends (s.took pg q' bytes) :=
  (h.setPage hq hends).congr rfl (fun _ => rfl) rfl

/-! ## `pipeclose` -/

theorem shut_isOpen {pg : Page} {q : Pipe} (hq : s.pages pg = some q) (writable : Bool)
    (e : Page × Bool) :
    (s.shut pg writable q).isOpen e = (s.isOpen e && e != (pg, writable)) := by
  have hpages : (s.shut pg writable q).pages = Function.update s.pages pg
      (if (pipeclose writable q).2 then none else some (pipeclose writable q).1) := by
    cases writable <;> rfl
  obtain ⟨pg', w⟩ := e
  by_cases hpg : pg' = pg
  · subst hpg
    have hne : ((pg', w) != (pg', writable)) = (w != writable) := by simp [bne, BEq.beq]
    rw [State.isOpen, State.isOpen, hpages, Function.update_self, hq, hne]
    dsimp only [Option.any_some]
    rw [← pipeclose_isOpen]
    cases hfree : (pipeclose writable q).2 with
    | false => rfl
    | true =>
        -- the other end has been closed before
        rw [pipeclose_free] at hfree
        rw [pipeclose_isOpen]
        cases w <;> cases writable <;> simp_all
  · have hne : ((pg', w) != (pg, writable)) = true := by simp [hpg]
    rw [State.isOpen, State.isOpen, hpages, Function.update_of_ne hpg, hne, Bool.and_true]

theorem shut_pend (pg : Page) (writable : Bool) (q : Pipe) (r : Fin NPROC) :
    ((s.shut pg writable q).pc r).pend = (s.pc r).pend := by
  cases writable with
  | true =>
      exact (Core.woken_mapPipe Core.wokenReader_writes Core.wokenReader_outside pg _).pend
  | false =>
      exact (Core.woken_mapPipe Core.wokenWriter_writes Core.wokenWriter_outside pg _).pend

omit [DecidableEq Page] in
theorem settled_pend {c : Pc Page} {e : Page × Bool} (h : c.pend = some e) :
    c.settled.pend = none := by
  cases c with
  | closing | exitClosing => rfl
  | _ => cases h

theorem shut (h : Ends s) {pg : Page} {writable : Bool} {q : Pipe}
    (hpend : (s.pc p).pend = some (pg, writable)) (hq : s.pages pg = some q) :
    Ends ((s.shut pg writable q).goto p (s.pc p).settled) := by
  have hends : (s.shut pg writable q).ftable.ends = s.ftable.ends := by
    cases writable <;> rfl
  constructor
  · intro e
    have htally := tally_of_eq_off (f := fun r => if (s.pc r).pend = some e then 1 else 0)
      (g := fun r => if (((s.shut pg writable q).goto p (s.pc p).settled).pc r).pend = some e
        then 1 else 0) p
      fun r hr => by rw [State.goto_of_ne hr, shut_pend]
    rw [State.goto_self, settled_pend hpend, hpend,
      if_neg (show ¬ none = some e by simp)] at htally
    have hone := h.one e
    unfold State.owners at hone ⊢
    change count (s.shut pg writable q).ftable.ends e + _ =
      if (s.shut pg writable q).isOpen e then 1 else 0
    rw [hends, shut_isOpen hq]
    by_cases he : (pg, writable) = e
    · subst he
      have hopen := h.open_of_pend hpend
      rw [if_pos rfl] at htally
      rw [if_pos hopen] at hone
      simp only [bne_self_eq_false, Bool.and_false, Bool.false_eq_true, if_false]
      omega
    · rw [if_neg (by simpa using he)] at htally
      have hne : (e != (pg, writable)) = true := by simpa using Ne.symm he
      rw [hne, Bool.and_true]
      omega
  · intro pg' r hr
    have hpages : ((s.shut pg writable q).goto p (s.pc p).settled).pages =
        Function.update s.pages pg
          (if (pipeclose writable q).2 then none else some (pipeclose writable q).1) := by
      cases writable <;> rfl
    rw [hpages] at hr
    by_cases hpg : pg' = pg
    · subst hpg
      rw [Function.update_self] at hr
      split at hr
      · cases hr
      · rename_i hfree
        obtain rfl := Option.some.inj hr
        have hflags : (pipeclose writable q).2 =
            (!(pipeclose writable q).1.readopen && !(pipeclose writable q).1.writeopen) := rfl
        rw [hflags] at hfree
        simpa [imp_iff_not_or] using hfree
    · rw [Function.update_of_ne hpg] at hr
      exact h.used pg' r hr

/-! ## `pipealloc` -/

/-- Two new files become the ends of a new pipe. -/
theorem alloc (h : Ends s) {f0 f1 : Fin NFILE} {pg : Page} {data : Fin PIPESIZE → UInt8}
    {o : OFile} {c : Pc Page} (hnew : s.pages pg = none) (hne : f0 ≠ f1)
    (h0 : s.ftable.ends f0 = none) (h1 : s.ftable.ends f1 = none)
    (hold : (s.pc p).pend = none) (hc : c.pend = none) :
    Ends (((s.makePipe pg data).withFiles o
      ((s.ftable.modify f0 fun x => x.asPipe pg false).modify f1 fun x =>
        x.asPipe pg true)).goto p c) := by
  have hcount : ∀ e, count ((s.ftable.modify f0 fun x => x.asPipe pg false).modify f1 fun x =>
      x.asPipe pg true).ends e =
      count s.ftable.ends e + (if (pg, false) = e then 1 else 0) +
        if (pg, true) = e then 1 else 0 := by
    intro e
    have hfirst := count_update s.ftable.ends f0 (some (pg, false)) e
    have hsecond := count_update (Function.update s.ftable.ends f0 (some (pg, false))) f1
      (some (pg, true)) e
    rw [Function.update_of_ne (Ne.symm hne), h1] at hsecond
    rw [h0] at hfirst
    rw [FTable.ends_modify, FTable.ends_modify, File.pipeEnd_asPipe, File.pipeEnd_asPipe]
    simp only [reduceCtorEq, if_false, Option.some.injEq] at hfirst hsecond
    omega
  constructor
  · intro e
    have htally := tally_of_eq_off (f := fun r => if (s.pc r).pend = some e then 1 else 0)
      (g := fun r => if ((((s.makePipe pg data).withFiles o
        ((s.ftable.modify f0 fun x => x.asPipe pg false).modify f1 fun x =>
          x.asPipe pg true)).goto p c).pc r).pend = some e then 1 else 0) p
      fun r hr => by rw [State.goto_of_ne hr]; rfl
    rw [State.goto_self, hold, hc] at htally
    have hone := h.one e
    have hce := hcount e
    unfold State.owners at hone ⊢
    change count ((s.ftable.modify f0 fun x => x.asPipe pg false).modify f1 fun x =>
      x.asPipe pg true).ends e + _ = if (s.makePipe pg data).isOpen e then 1 else 0
    obtain ⟨pg', w⟩ := e
    by_cases hpg : pg' = pg
    · subst hpg
      have hclosed : s.isOpen (pg', w) = false := by rw [State.isOpen, hnew]; rfl
      have hopen : (s.makePipe pg' data).isOpen (pg', w) = true := by
        cases w <;> simp [State.isOpen, State.makePipe, Pipe.isOpen, Pipe.alloc]
      rw [hclosed] at hone
      rw [hopen]
      cases w with
      | true =>
          simp only [Prod.mk.injEq, true_and, Bool.false_eq_true, if_false, if_true] at hce hone ⊢
          omega
      | false =>
          simp only [Prod.mk.injEq, true_and, Bool.true_eq_false, Bool.false_eq_true, if_false,
            if_true] at hce hone ⊢
          omega
    · have hsame : (s.makePipe pg data).isOpen (pg', w) = s.isOpen (pg', w) := by
        simp [State.isOpen, State.makePipe, hpg]
      rw [if_neg (fun heq => hpg (Prod.mk.inj heq).1.symm),
        if_neg (fun heq => hpg (Prod.mk.inj heq).1.symm)] at hce
      rw [hsame]
      omega
  · intro pg' r hr
    change Function.update s.pages pg (some (.alloc data)) pg' = some r at hr
    by_cases hpg : pg' = pg
    · subst hpg
      rw [Function.update_self] at hr
      obtain rfl := Option.some.inj hr
      exact .inl rfl
    · rw [Function.update_of_ne hpg] at hr
      exact h.used pg' r hr

end Ends

end Files

end OsSolutions
