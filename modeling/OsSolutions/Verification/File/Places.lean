import OsSolutions.Model.FileMachine
import OsSolutions.Transition.Tally
import OsSolutions.Verification.File.Tables

/-! # What each process holds

The references to a file are the descriptors and the pointers of the processes inside of a call.
Each place of a call comes with a condition on its files, which the steps of the others keep. -/

namespace OsSolutions.Files

open Pointers Transition

variable {Page : Type} {s : State Page} {p q : Fin NPROC}

namespace Pc

/-- The pointers to a file that a call owns. Calls on a descriptor have a pointer, too, but that
descriptor is the reference. -/
def held : Pc Page → Fin NFILE → ℕ
  | .pipealloc f0 f1, f => (if f0 = f then 1 else 0) + if f1 = some f then 1 else 0
  | .closing _ f0 f1, f => (if f0 = some f then 1 else 0) + if f1 = some f then 1 else 0
  | _, _ => 0

/-- The end of a pipe that is to be closed next. -/
def pend : Pc Page → Option (Page × Bool)
  | .closing e _ _ | .exitClosing _ e => e
  | _ => none

/-- The new process of a `fork`. -/
def child : Pc Page → Option (Fin NPROC)
  | .allocated np | .forking np _ => some np
  | _ => none

/-- The descriptor with a file that `exit` has closed already. -/
def stale : Pc Page → Option (Fin NOFILE)
  | .exitClosing fd _ => some fd
  | _ => none

/-- The descriptors without that one. -/
def live (c : Pc Page) (ofile : Fin NOFILE → Option (Fin NFILE)) (fd : Fin NOFILE) :
    Option (Fin NFILE) :=
  if c.stale = some fd then none else ofile fd

theorem live_of_stale {c : Pc Page} (h : c.stale = none)
    (ofile : Fin NOFILE → Option (Fin NFILE)) : c.live ofile = ofile := by
  funext fd
  rw [live, h, if_neg (by simp)]

theorem of_live {c : Pc Page} {ofile : Fin NOFILE → Option (Fin NFILE)} {fd : Fin NOFILE}
    {f : Fin NFILE} (h : c.live ofile fd = some f) : ofile fd = some f :=
  (Option.ite_none_left_eq_some.mp h).2

theorem live_exitClosing (fd : Fin NOFILE) (e : Option (Page × Bool))
    (ofile : Fin NOFILE → Option (Fin NFILE)) :
    (exitClosing fd e).live ofile = Function.update ofile fd none := by
  funext d
  by_cases hd : d = fd
  · subst hd
    simp [live, stale]
  · simp [live, stale, hd, Ne.symm hd]

/-- Two places with the same references besides the descriptors. -/
structure SameRefs (c d : Pc Page) : Prop where
  held : ∀ f, c.held f = d.held f
  stale : c.stale = d.stale

theorem SameRefs.live {c d : Pc Page} (h : c.SameRefs d)
    (ofile : Fin NOFILE → Option (Fin NFILE)) : c.live ofile = d.live ofile := by
  funext fd
  rw [Pc.live, Pc.live, h.stale]

end Pc

@[simp] theorem State.goto_self (s : State Page) (p : Fin NPROC) (c : Pc Page) :
    (s.goto p c).pc p = c := by
  simp [State.goto]

theorem State.goto_of_ne {c : Pc Page} (h : q ≠ p) : (s.goto p c).pc q = s.pc q := by
  simp [State.goto, h]

/-- The references of one process to a file. -/
def weight (ofile : Fin NOFILE → Option (Fin NFILE)) (c : Pc Page) (f : Fin NFILE) : ℕ :=
  count (c.live ofile) f + c.held f

/-- What a process at a place knows of its files. -/
def At (o : OFile) (t : FTable Page) (p : Fin NPROC) : Pc Page → Prop
  | .user | .closing .. => True
  | .inPipe f pg c =>
      c ≠ .outside ∧ (∃ fd, o p fd = some f) ∧ t.ends f = some (pg, decide c.Writes)
  | .inInode f _ => ∃ fd, o p fd = some f
  | .pipealloc f0 f1 => (t f0).Fresh ∧ ∀ f, f1 = some f → (t f).Fresh
  | .opened f _ => (t f).Fresh ∧ ∃ fd, o p fd = some f
  | .allocated np => ∀ fd, o np fd = none
  | .forking np i => ∀ fd : Fin NOFILE, i ≤ fd → o np fd = none
  | .exiting i => ∀ fd : Fin NOFILE, fd < i → o p fd = none
  | .exitClosing i _ => ∀ fd < i, o p fd = none

structure Place (o : OFile) (t : FTable Page) (p : Fin NPROC) (c : Pc Page) : Prop where
  knows : At o t p c
  typed : ∀ fd f, c.live (o p) fd = some f →
    (t f).type ≠ .none ∨ ∃ omode, c = .opened f omode

/-- The invariant of the processes and the files. -/
structure Core (s : State Page) : Prop where
  fault : s.fault = false
  good : ∀ f, (s.ftable f).Good
  refs : ∀ f, (s.ftable f).ref = tally fun p => weight (s.ofile p) (s.pc p) f
  place : ∀ p, Place s.ofile s.ftable p (s.pc p)
  busy : ∀ p, s.pc p ≠ .user → (s.kernel.proc p).state = .runnable
  cleared : ∀ p, (s.kernel.proc p).state = .unused ∨ (s.kernel.proc p).state = .zombie →
    ∀ fd, s.ofile p fd = none
  embryo : ∀ p np, (s.pc p).child = some np → (s.kernel.proc np).state = .embryo
  parent : ∀ p q np, (s.pc p).child = some np → (s.pc q).child = some np → p = q

/-- The table `t` differs from that of `s` in new files and in files of `p`, and there in the
counts only unless `p` has the only reference. -/
def Touches (s : State Page) (p : Fin NPROC) (t : FTable Page) : Prop :=
  ∀ f, t f = s.ftable f ∨ (s.ftable f).ref = 0 ∨
    0 < weight (s.ofile p) (s.pc p) f ∧
      (SameKind (s.ftable f) (t f) ∨ (s.ftable f).ref = 1)

theorem weight_pos_of_cell {cells : Fin NOFILE → Option (Fin NFILE)} {c : Pc Page}
    {f : Fin NFILE} {fd : Fin NOFILE} (h : c.live cells fd = some f) : 0 < weight cells c f := by
  have := count_pos h
  unfold weight
  omega

namespace Core

variable {f : Fin NFILE}

theorem weight_le (h : Core s) (p : Fin NPROC) (f : Fin NFILE) :
    weight (s.ofile p) (s.pc p) f ≤ (s.ftable f).ref := by
  rw [h.refs f]
  exact le_tally (fun p => weight (s.ofile p) (s.pc p) f) p

/-- Outside of `exit` every descriptor is a reference. -/
theorem weight_pos (hstale : (s.pc p).stale = none) {fd : Fin NOFILE}
    (hfd : s.ofile p fd = some f) : 0 < weight (s.ofile p) (s.pc p) f :=
  weight_pos_of_cell (by rw [Pc.live_of_stale hstale, hfd])

theorem ref_pos (h : Core s) (hstale : (s.pc p).stale = none) {fd : Fin NOFILE}
    (hfd : s.ofile p fd = some f) : 0 < (s.ftable f).ref :=
  (weight_pos hstale hfd).trans_le (h.weight_le p f)

/-- Only in `sys_open` a descriptor may have a file without a type. -/
theorem type_ne_none (h : Core s) (hopened : ∀ f omode, s.pc p ≠ .opened f omode)
    {fd : Fin NOFILE} (hfd : (s.pc p).live (s.ofile p) fd = some f) :
    (s.ftable f).type ≠ .none :=
  ((h.place p).typed fd f hfd).resolve_right fun ⟨omode, heq⟩ => hopened f omode heq

/-- Nobody else has a reference to a file with a single one. -/
theorem alone (h : Core s) (hp : 0 < weight (s.ofile p) (s.pc p) f)
    (hq : 0 < weight (s.ofile q) (s.pc q) f) (hone : (s.ftable f).ref = 1) : p = q := by
  by_contra hne
  have hle := add_le_tally (fun p => weight (s.ofile p) (s.pc p) f) hne
  have hrefs := h.refs f
  omega

/-! ## The steps of the others -/

variable {t : FTable Page}

/-- What a step of `p` leaves of the files of `q`. -/
theorem touched (h : Core s) (ht : Touches s p t) (hne : q ≠ p)
    (hq : 0 < weight (s.ofile q) (s.pc q) f) :
    SameKind (s.ftable f) (t f) ∧ ((s.ftable f).ref = 1 → t f = s.ftable f) := by
  have hle := h.weight_le q f
  rcases ht f with heq | hzero | ⟨hp, hkind⟩
  · rw [heq]
    exact ⟨.refl _, fun _ => rfl⟩
  · omega
  · have hmany : (s.ftable f).ref ≠ 1 := fun hone => hne (h.alone hq hp hone)
    exact ⟨hkind.resolve_right hmany, fun hone => absurd hone hmany⟩

theorem fresh_of_touches (h : Core s) (ht : Touches s p t) (hne : q ≠ p)
    (hq : 0 < weight (s.ofile q) (s.pc q) f) (hf : (s.ftable f).Fresh) : (t f).Fresh := by
  rw [(h.touched ht hne hq).2 hf.ref]
  exact hf

theorem at_of_touches (h : Core s) (ht : Touches s p t) (hne : q ≠ p) {o : OFile}
    (hq : o q = s.ofile q) (hchild : ∀ np, (s.pc q).child = some np → o np = s.ofile np) :
    At o t q (s.pc q) := by
  have hknows := (h.place q).knows
  cases hpc : s.pc q with
  | user | closing => trivial
  | inPipe f pg c =>
      rw [hpc] at hknows
      obtain ⟨hin, ⟨fd, hfd⟩, hend⟩ := hknows
      refine ⟨hin, ⟨fd, by rw [hq, hfd]⟩, ?_⟩
      rw [← hend]
      exact (h.touched ht hne (weight_pos (by rw [hpc]; rfl) hfd)).1.pipeEnd
  | inInode f n =>
      rw [hpc] at hknows
      rw [At, hq]
      exact hknows
  | pipealloc f0 f1 =>
      rw [hpc] at hknows
      have hheld : ∀ f, f0 = f ∨ f1 = some f → 0 < weight (s.ofile q) (s.pc q) f := by
        rintro f hf
        rw [hpc, weight, Pc.held]
        rcases hf with hf | hf
        · rw [if_pos hf]
          omega
        · rw [if_pos hf]
          omega
      exact ⟨h.fresh_of_touches ht hne (hheld f0 (.inl rfl)) hknows.1,
        fun f hf => h.fresh_of_touches ht hne (hheld f (.inr hf)) (hknows.2 f hf)⟩
  | opened f omode =>
      rw [hpc] at hknows
      obtain ⟨hfresh, fd, hfd⟩ := hknows
      exact ⟨h.fresh_of_touches ht hne (weight_pos (by rw [hpc]; rfl) hfd) hfresh, fd,
        by rw [hq, hfd]⟩
  | allocated np =>
      rw [hpc] at hknows hchild
      rw [At, hchild np rfl]
      exact hknows
  | forking np i =>
      rw [hpc] at hknows hchild
      rw [At, hchild np rfl]
      exact hknows
  | exiting | exitClosing =>
      rw [hpc] at hknows
      rw [At, hq]
      exact hknows

theorem place_of_touches (h : Core s) (ht : Touches s p t) (hne : q ≠ p) {o : OFile}
    (hq : o q = s.ofile q) (hchild : ∀ np, (s.pc q).child = some np → o np = s.ofile np) :
    Place o t q (s.pc q) := by
  refine ⟨h.at_of_touches ht hne hq hchild, ?_⟩
  intro fd f hfd
  rw [hq] at hfd
  rw [(h.touched ht hne (weight_pos_of_cell hfd)).1.type]
  exact (h.place q).typed fd f hfd

/-! ## Steps on the files of one process -/

/-- A step of `p` that changes its references and the counts of their files alike. -/
theorem files (h : Core s) {o : OFile} {c : Pc Page}
    (hrun : (s.kernel.proc p).state = .runnable) (hoff : ∀ q, q ≠ p → o q = s.ofile q)
    (hrefs : ∀ f, (t f).ref + weight (s.ofile p) (s.pc p) f =
      (s.ftable f).ref + weight (o p) c f)
    (hgood : ∀ f, (t f).Good) (ht : Touches s p t) (hplace : Place o t p c)
    (hchild : ∀ np, c.child = some np →
      (s.kernel.proc np).state = .embryo ∧ ∀ q, (s.pc q).child = some np → q = p) :
    Core ((s.withFiles o t).goto p c) := by
  have hpc : ∀ q, q ≠ p → ((s.withFiles o t).goto p c).pc q = s.pc q :=
    fun q hq => State.goto_of_ne hq
  have hself : ((s.withFiles o t).goto p c).pc p = c := State.goto_self ..
  have hsub : ∀ q np, (((s.withFiles o t).goto p c).pc q).child = some np →
      q = p ∧ c.child = some np ∨ q ≠ p ∧ (s.pc q).child = some np := by
    intro q np hnp
    by_cases hq : q = p
    · subst hq
      rw [hself] at hnp
      exact .inl ⟨rfl, hnp⟩
    · rw [hpc q hq] at hnp
      exact .inr ⟨hq, hnp⟩
  refine ⟨h.fault, hgood, ?_, ?_, ?_, ?_, ?_, ?_⟩
  · intro f
    have htally := tally_of_eq_off (f := fun q => weight (s.ofile q) (s.pc q) f)
      (g := fun q => weight (o q) (((s.withFiles o t).goto p c).pc q) f) p
      fun q hq => by rw [hoff q hq, hpc q hq]
    rw [hself, ← h.refs f] at htally
    have := hrefs f
    change (t f).ref = tally fun q => weight (o q) (((s.withFiles o t).goto p c).pc q) f
    omega
  · intro q
    by_cases hq : q = p
    · subst hq
      rw [hself]
      exact hplace
    · rw [hpc q hq]
      refine h.place_of_touches ht hq (hoff q hq) ?_
      intro np hnp
      refine hoff np fun heq => ?_
      have hembryo := h.embryo q np hnp
      rw [heq, hrun] at hembryo
      cases hembryo
  · intro q hbusy
    by_cases hq : q = p
    · rw [hq]
      exact hrun
    · rw [hpc q hq] at hbusy
      exact h.busy q hbusy
  · intro q hq
    have hne : q ≠ p := by
      rintro rfl
      change (s.kernel.proc q).state = _ ∨ (s.kernel.proc q).state = _ at hq
      rw [hrun] at hq
      rcases hq with hq | hq <;> cases hq
    change ∀ fd, o q fd = none
    rw [hoff q hne]
    exact h.cleared q hq
  · intro q np hnp
    rcases hsub q np hnp with ⟨_, hnp⟩ | ⟨_, hnp⟩
    · exact (hchild np hnp).1
    · exact h.embryo q np hnp
  · intro q r np hq hr
    rcases hsub q np hq with ⟨rfl, hcq⟩ | ⟨hqne, hq⟩
    · rcases hsub r np hr with ⟨rfl, _⟩ | ⟨_, hr⟩
      · rfl
      · exact ((hchild np hcq).2 r hr).symm
    · rcases hsub r np hr with ⟨_, hcr⟩ | ⟨_, hr⟩
      · exact absurd ((hchild np hcr).2 q hq) hqne
      · exact h.parent q r np hq hr

end Core

end OsSolutions.Files
