import OsSolutions.Transition.Run
import OsSolutions.Verification.File.Steps

/-! # Rules for the invariant of processes and files

One rule for each thing that a step can do to the references of a process. -/

namespace OsSolutions.Files

open Pointers Transition

variable {Page : Type} {s : State Page} {p q : Fin NPROC} {f : Fin NFILE} {c : Pc Page}
  {o : OFile} {t : FTable Page}

theorem weight_update (cells : Fin NOFILE → Option (Fin NFILE)) (fd : Fin NOFILE)
    (v : Option (Fin NFILE)) (hc : c.stale = none) (g : Fin NFILE) :
    weight (Function.update cells fd v) c g + (if cells fd = some g then 1 else 0) =
      weight cells c g + if v = some g then 1 else 0 := by
  have := count_update cells fd v g
  unfold weight
  rw [Pc.live_of_stale hc, Pc.live_of_stale hc]
  omega

/-- A free descriptor gets a file. -/
theorem weight_point {cells : Fin NOFILE → Option (Fin NFILE)} {fd : Fin NOFILE}
    (h : cells fd = none) (f : Fin NFILE) (hc : c.stale = none) (g : Fin NFILE) :
    weight (Function.update cells fd (some f)) c g =
      weight cells c g + if g = f then 1 else 0 := by
  have := weight_update cells fd (some f) hc g
  rw [h, if_neg (show ¬ none = some g by simp)] at this
  simpa [eq_comm] using this

/-- A descriptor is cleared. -/
theorem weight_clear {cells : Fin NOFILE → Option (Fin NFILE)} {fd : Fin NOFILE}
    (h : cells fd = some f) (hc : c.stale = none) (g : Fin NFILE) :
    weight (Function.update cells fd none) c g + (if g = f then 1 else 0) =
      weight cells c g := by
  have := weight_update cells fd none hc g
  rw [h, if_neg (show ¬ none = some g by simp)] at this
  simpa [eq_comm] using this

theorem weight_of_stale (cells : Fin NOFILE → Option (Fin NFILE)) (hc : c.stale = none)
    (g : Fin NFILE) : weight cells c g = count cells g + c.held g := by
  rw [weight, Pc.live_of_stale hc]

theorem weight_congr (cells : Fin NOFILE → Option (Fin NFILE)) {c d : Pc Page}
    (h : d.SameRefs c) (g : Fin NFILE) : weight cells d g = weight cells c g := by
  rw [weight, weight, h.held, h.live]

namespace Core

/-! ## Rules for the steps of one process -/

theorem touches_of_kind (h : ∀ g, SameKind (s.ftable g) (t g))
    (hp : ∀ g, t g = s.ftable g ∨ (s.ftable g).ref = 0 ∨ 0 < weight (s.ofile p) (s.pc p) g) :
    Touches s p t := by
  intro g
  rcases hp g with heq | hzero | hpos
  · exact .inl heq
  · exact .inr (.inl hzero)
  · exact .inr (.inr ⟨hpos, .inl (h g)⟩)

theorem setRef_of_ne {n : ℕ} {g : Fin NFILE} (h : g ≠ f) :
    s.ftable.setRef f n g = s.ftable g := FTable.modify_of_ne _ h

/-- The process goes on to another place with the same references. -/
theorem goto (h : Core s) {d : Pc Page} (hpc : s.pc p = d)
    (hrun : (s.kernel.proc p).state = .runnable) (hsame : c.SameRefs d)
    (hat : At s.ofile s.ftable p c) (hopened : ∀ f omode, d ≠ .opened f omode)
    (hchild : ∀ np, c.child = some np →
      (s.kernel.proc np).state = .embryo ∧ ∀ q, (s.pc q).child = some np → q = p) :
    Core (s.goto p c) := by
  subst hpc
  refine h.files (o := s.ofile) (t := s.ftable) hrun (fun _ _ => rfl) ?_ h.good
    (fun g => .inl rfl) ⟨hat, fun fd g hfd => ?_⟩ hchild
  · intro g
    rw [weight_congr _ hsame]
  · rw [hsame.live] at hfd
    exact .inl (h.type_ne_none hopened hfd)

/-- The same for places outside of `fork`. -/
theorem goto_of_child (h : Core s) {d : Pc Page} (hpc : s.pc p = d)
    (hrun : (s.kernel.proc p).state = .runnable) (hsame : c.SameRefs d)
    (hat : At s.ofile s.ftable p c) (hopened : ∀ f omode, d ≠ .opened f omode)
    (hchild : c.child = none) : Core (s.goto p c) :=
  h.goto hpc hrun hsame hat hopened fun np hnp => by rw [hchild] at hnp; cases hnp

/-- A reference of the process goes, and so does the file if it was the last one. -/
theorem closed (h : Core s) {e : Option (Page × Bool)}
    (hrun : (s.kernel.proc p).state = .runnable) (hoff : ∀ q, q ≠ p → o q = s.ofile q)
    (hcells : ∀ fd g, c.live (o p) fd = some g → (s.pc p).live (s.ofile p) fd = some g)
    (hclosed : s.ftable.Closed f t e)
    (hweight : ∀ g, weight (o p) c g + (if g = f then 1 else 0) =
      weight (s.ofile p) (s.pc p) g)
    (hat : At o t p c) (hopened : ∀ f omode, s.pc p ≠ .opened f omode)
    (hchild : c.child = none) : Core ((s.withFiles o t).goto p c) := by
  have hpos := hclosed.pos
  have hf : 0 < weight (s.ofile p) (s.pc p) f := by
    have := hweight f
    rw [if_pos rfl] at this
    omega
  refine h.files hrun hoff ?_ (hclosed.good h.good) ?_ ⟨hat, ?_⟩ ?_
  · intro g
    have hg := hweight g
    have hle := h.weight_le p g
    rw [hclosed.ref g]
    split at hg
    · rename_i heq
      rw [if_pos heq]
      omega
    · rename_i hne
      rw [if_neg hne]
      omega
  · intro g
    by_cases hg : g = f
    · subst hg
      refine .inr (.inr ⟨hf, ?_⟩)
      cases hclosed with
      | shared hone => exact .inl (FTable.setRef_kind _ _ _ _)
      | last hone => exact .inr hone
    · refine .inl ?_
      cases hclosed with
      | shared hone => exact setRef_of_ne hg
      | last hone => exact FTable.modify_of_ne _ hg
  · intro fd g hfd
    have htype := h.type_ne_none hopened (hcells fd g hfd)
    refine .inl ?_
    cases hclosed with
    | shared hone => rwa [(FTable.setRef_kind _ _ _ _).type]
    | last hone =>
        by_cases hg : g = f
        · -- there was another reference
          subst hg
          have hmany := hweight g
          have hle := h.weight_le p g
          have hcell := weight_pos_of_cell (c := c) hfd
          rw [if_pos rfl] at hmany
          omega
        · rwa [FTable.release, FTable.modify_of_ne _ hg]
  · intro np hnp
    rw [hchild] at hnp
    cases hnp

/-- A new file, with a reference of the process. -/
theorem allocated (h : Core s) (hrun : (s.kernel.proc p).state = .runnable)
    (hstale : (s.pc p).stale = none) (hoff : ∀ q, q ≠ p → o q = s.ofile q)
    (hzero : (s.ftable f).ref = 0)
    (hcells : ∀ fd g, o p fd = some g →
      s.ofile p fd = some g ∨ g = f ∧ ∃ omode, c = .opened f omode)
    (hweight : ∀ g, weight (o p) c g =
      weight (s.ofile p) (s.pc p) g + if g = f then 1 else 0)
    (hat : At o (s.ftable.setRef f 1) p c) (hopened : ∀ f omode, s.pc p ≠ .opened f omode)
    (hchild : c.child = none) : Core ((s.withFiles o (s.ftable.setRef f 1)).goto p c) := by
  refine h.files hrun hoff ?_ (FTable.good_setRef h.good (by omega)) ?_ ⟨hat, ?_⟩ ?_
  · intro g
    have hg := hweight g
    rw [FTable.setRef_ref]
    split at hg
    · rename_i heq
      rw [if_pos heq, heq] at *
      omega
    · rename_i hne
      rw [if_neg hne]
      omega
  · refine touches_of_kind (FTable.setRef_kind _ _ _) fun g => ?_
    by_cases hg : g = f
    · exact .inr (.inl (hg ▸ hzero))
    · exact .inl (setRef_of_ne hg)
  · intro fd g hfd
    rcases hcells fd g (Pc.of_live hfd) with hold | ⟨rfl, hnew⟩
    · rw [← Pc.live_of_stale hstale (s.ofile p)] at hold
      rw [(FTable.setRef_kind _ _ _ _).type]
      exact .inl (h.type_ne_none hopened hold)
    · exact .inr hnew
  · intro np hnp
    rw [hchild] at hnp
    cases hnp

theorem fresh_of_free (h : Core s) (hzero : (s.ftable f).ref = 0) :
    (s.ftable.setRef f 1 f).Fresh := by
  rw [FTable.setRef, FTable.modify_self]
  exact ⟨(h.good f).free hzero, rfl⟩

/-- A file that is new to its process stays so when another one is taken. -/
theorem fresh_setRef {g : Fin NFILE} (hg : (s.ftable g).Fresh) (hzero : (s.ftable f).ref = 0) :
    (s.ftable.setRef f 1 g).Fresh := by
  have hne : g ≠ f := by
    rintro rfl
    have := hg.ref
    omega
  rw [setRef_of_ne hne]
  exact hg

/-- New files of the process get their types. -/
theorem retyped (h : Core s) (hrun : (s.kernel.proc p).state = .runnable)
    (hoff : ∀ q, q ≠ p → o q = s.ofile q)
    (hnew : ∀ g, t g = s.ftable g ∨ (s.ftable g).Fresh ∧ 0 < weight (s.ofile p) (s.pc p) g ∧
      (t g).ref = 1 ∧ (t g).Good ∧ (t g).type ≠ .none)
    (hcells : ∀ fd g, o p fd = some g → (t g).type ≠ .none)
    (hweight : ∀ g, weight (o p) c g = weight (s.ofile p) (s.pc p) g) (hat : At o t p c)
    (hchild : c.child = none) : Core ((s.withFiles o t).goto p c) := by
  refine h.files hrun hoff ?_ ?_ ?_ ⟨hat, fun fd g hfd => .inl (hcells fd g (Pc.of_live hfd))⟩ ?_
  · intro g
    rw [hweight g]
    rcases hnew g with heq | ⟨hfresh, _, hone, _⟩
    · rw [heq]
    · rw [hone, hfresh.ref]
  · intro g
    rcases hnew g with heq | ⟨_, _, _, hgood, _⟩
    · rw [heq]
      exact h.good g
    · exact hgood
  · intro g
    rcases hnew g with heq | ⟨hfresh, hpos, _⟩
    · exact .inl heq
    · exact .inr (.inr ⟨hpos, .inr hfresh.ref⟩)
  · intro np hnp
    rw [hchild] at hnp
    cases hnp

theorem good_asPipe {x : File Page} (h : x.ref = 1) (pg : Page) (writable : Bool) :
    (x.asPipe pg writable).Good :=
  ⟨fun hzero => absurd (h.symm.trans hzero) one_ne_zero, fun _ => ⟨pg, rfl, rfl⟩⟩

theorem good_asInode {x : File Page} (h : x.ref = 1) (omode : UInt32) :
    (x.asInode omode).Good :=
  ⟨fun hzero => absurd (h.symm.trans hzero) one_ne_zero, fun hpipe => by cases hpipe⟩

/-- `dup` of a descriptor. -/
theorem dup (h : Core s) (hp : s.Ready p) {fd fd' : Fin NOFILE} (hfd : s.ofile p fd = some f)
    (hfree : s.ofile p fd' = none) :
    Core (s.withFiles (s.ofile.set p fd' (some f))
      (s.ftable.setRef f ((s.ftable f).ref + 1))) := by
  have hgoto : s.withFiles (s.ofile.set p fd' (some f))
      (s.ftable.setRef f ((s.ftable f).ref + 1)) = (s.withFiles (s.ofile.set p fd' (some f))
        (s.ftable.setRef f ((s.ftable f).ref + 1))).goto p .user := by
    have hpc : Function.update s.pc p .user = s.pc := by
      rw [← hp.2]
      exact Function.update_eq_self p s.pc
    rw [State.goto]
    exact congrArg (fun pc => State.mk s.kernel _ _ s.pages pc s.fault s.bytesIn s.bytesOut)
      hpc.symm
  have hpos := h.ref_pos (ready_stale hp) hfd
  rw [hgoto]
  refine h.files hp.1 (fun q hq => OFile.set_of_ne _ _ hq) ?_ (FTable.good_setRef h.good (by omega))
    ?_ ⟨trivial, ?_⟩ fun np hnp => by cases hnp
  · intro g
    rw [OFile.set_self, FTable.setRef_ref, ← hp.2, weight_point hfree f (ready_stale hp)]
    by_cases hg : g = f
    · subst hg
      rw [if_pos rfl, if_pos rfl]
      omega
    · rw [if_neg hg, if_neg hg]
      omega
  · refine touches_of_kind (FTable.setRef_kind _ _ _) fun g => ?_
    by_cases hg : g = f
    · exact .inr (.inr (hg ▸ weight_pos (ready_stale hp) hfd))
    · exact .inl (setRef_of_ne hg)
  · intro d g hd
    rw [(FTable.setRef_kind _ _ _ _).type]
    replace hd := Pc.of_live hd
    rw [OFile.set_self] at hd
    by_cases hdd : d = fd'
    · subst hdd
      obtain rfl : f = g := by simpa using hd
      exact .inl (h.typed hp hfd)
    · rw [Function.update_of_ne hdd] at hd
      exact .inl (h.typed hp hd)

/-! ## The loop of `fork` -/

/-- What one turn of the loop makes of the state. -/
def forkTurn (s : State Page) (p np : Fin NPROC) (i : ℕ) (fd : Fin NOFILE) (f : Fin NFILE) :
    State Page :=
  (s.withFiles (s.ofile.set np fd (some f)) (s.ftable.setRef f ((s.ftable f).ref + 1))).goto p
    (.forking np (i + 1))

section Forking

variable {np : Fin NPROC} {i : ℕ} {fd : Fin NOFILE}

theorem forkTurn_self : (forkTurn s p np i fd f).pc p = .forking np (i + 1) := State.goto_self ..

theorem forkTurn_pc_of_ne (h : q ≠ p) : (forkTurn s p np i fd f).pc q = s.pc q := State.goto_of_ne h

theorem forkTurn_ofile_of_ne (h : q ≠ np) : (forkTurn s p np i fd f).ofile q = s.ofile q :=
  OFile.set_of_ne _ _ h

theorem forkTurn_ofile_self :
    (forkTurn s p np i fd f).ofile np = Function.update (s.ofile np) fd (some f) :=
  OFile.set_self ..

theorem forkTurn_type (g : Fin NFILE) :
    ((forkTurn s p np i fd f).ftable g).type = (s.ftable g).type :=
  (FTable.setRef_kind s.ftable f ((s.ftable f).ref + 1) g).type

theorem forkTurn_same_refs (hpc : s.pc p = .forking np i) (q : Fin NPROC) :
    ((forkTurn s p np i fd f).pc q).SameRefs (s.pc q) := by
  by_cases hq : q = p
  · rw [hq, forkTurn_self, hpc]
    exact ⟨fun _ => rfl, rfl⟩
  · rw [forkTurn_pc_of_ne hq]
    exact ⟨fun _ => rfl, rfl⟩

theorem forkTurn_child (hpc : s.pc p = .forking np i) (q : Fin NPROC) :
    ((forkTurn s p np i fd f).pc q).child = (s.pc q).child := by
  by_cases hq : q = p
  · rw [hq, forkTurn_self, hpc]
    rfl
  · rw [forkTurn_pc_of_ne hq]

theorem forking_embryo (h : Core s) (hpc : s.pc p = .forking np i) :
    (s.kernel.proc np).state = .embryo :=
  h.embryo p np (by rw [hpc]; rfl)

theorem forking_ne (h : Core s) (hpc : s.pc p = .forking np i) : np ≠ p := by
  rintro rfl
  have hembryo := h.forking_embryo hpc
  rw [h.busy np (by simp [hpc])] at hembryo
  cases hembryo

/-- The new process does not run yet. -/
theorem forking_idle (h : Core s) (hpc : s.pc p = .forking np i) : s.pc np = .user := by
  by_contra hbusy
  have hembryo := h.forking_embryo hpc
  rw [h.busy np hbusy] at hembryo
  cases hembryo

theorem forking_free (h : Core s) (hpc : s.pc p = .forking np i) (d : Fin NOFILE) (hd : i ≤ d) :
    s.ofile np d = none := by
  have hknows := (h.place p).knows
  rw [hpc] at hknows
  exact hknows d hd

/-- The count of the file grows with the descriptors of the new process. -/
theorem forkTurn_refs (h : Core s) (hpc : s.pc p = .forking np i) (hi : i ≤ fd) (g : Fin NFILE) :
    ((forkTurn s p np i fd f).ftable g).ref =
      tally fun q =>
        weight ((forkTurn s p np i fd f).ofile q) ((forkTurn s p np i fd f).pc q) g := by
  have htally := tally_of_eq_off (f := fun q => weight (s.ofile q) (s.pc q) g)
    (g := fun q => weight ((forkTurn s p np i fd f).ofile q) ((forkTurn s p np i fd f).pc q) g) np
    fun q hq => by rw [forkTurn_ofile_of_ne hq, weight_congr _ (forkTurn_same_refs hpc q)]
  rw [← h.refs g, weight_congr _ (forkTurn_same_refs hpc np), forkTurn_ofile_self,
    weight_point (h.forking_free hpc fd hi) f (by rw [h.forking_idle hpc]; rfl)] at htally
  change (s.ftable.setRef f ((s.ftable f).ref + 1) g).ref = _
  rw [FTable.setRef_ref]
  by_cases hg : g = f
  · subst hg
    rw [if_pos rfl] at htally ⊢
    omega
  · rw [if_neg hg] at htally ⊢
    omega

theorem forkTurn_place_parent (h : Core s) (hpc : s.pc p = .forking np i) (hi : fd = i) :
    Place (forkTurn s p np i fd f).ofile (forkTurn s p np i fd f).ftable p
      ((forkTurn s p np i fd f).pc p) := by
  rw [forkTurn_self]
  refine ⟨?_, ?_⟩
  · intro d hd
    have hne : d ≠ fd := by
      rintro rfl
      omega
    rw [forkTurn_ofile_self, Function.update_of_ne hne]
    exact h.forking_free hpc d (by omega)
  · intro d g hd
    rw [forkTurn_ofile_of_ne (h.forking_ne hpc).symm] at hd
    rw [forkTurn_type]
    replace hd : (s.pc p).live (s.ofile p) d = some g := by
      rw [hpc]
      exact hd
    exact .inl (h.type_ne_none (by simp [hpc]) hd)

theorem forkTurn_place_child (h : Core s) (hpc : s.pc p = .forking np i)
    (hfd : s.ofile p fd = some f) :
    Place (forkTurn s p np i fd f).ofile (forkTurn s p np i fd f).ftable np
      ((forkTurn s p np i fd f).pc np) := by
  rw [forkTurn_pc_of_ne (h.forking_ne hpc), h.forking_idle hpc]
  refine ⟨trivial, ?_⟩
  intro d g hd
  rw [forkTurn_type]
  replace hd := Pc.of_live hd
  rw [forkTurn_ofile_self] at hd
  by_cases hdfd : d = fd
  · subst hdfd
    obtain rfl : f = g := by simpa using hd
    have hlive : (s.pc p).live (s.ofile p) d = some f := by
      rw [hpc]
      exact hfd
    exact .inl (h.type_ne_none (by simp [hpc]) hlive)
  · rw [Function.update_of_ne hdfd] at hd
    have hlive : (s.pc np).live (s.ofile np) d = some g := by
      rw [h.forking_idle hpc]
      exact hd
    exact .inl (h.type_ne_none (by simp [h.forking_idle hpc]) hlive)

/-- One turn of the loop of `fork`. -/
theorem forkDup (h : Core s) (hpc : s.pc p = .forking np i) (hi : i < NOFILE)
    (hfd : s.ofile p ⟨i, hi⟩ = some f) : Core (forkTurn s p np i ⟨i, hi⟩ f) := by
  have hembryo := h.forking_embryo hpc
  have htouch : Touches s p (s.ftable.setRef f ((s.ftable f).ref + 1)) := by
    refine touches_of_kind (FTable.setRef_kind _ _ _) fun g => ?_
    by_cases hg : g = f
    · exact .inr (.inr (hg ▸ weight_pos (by rw [hpc]; rfl) hfd))
    · exact .inl (setRef_of_ne hg)
  refine ⟨h.fault, FTable.good_setRef h.good (by omega), h.forkTurn_refs hpc (Nat.le_refl i), ?_,
    ?_, ?_, ?_, ?_⟩
  · intro q
    by_cases hq : q = p
    · rw [hq]
      exact h.forkTurn_place_parent hpc rfl
    · by_cases hqnp : q = np
      · rw [hqnp]
        exact h.forkTurn_place_child hpc hfd
      · rw [forkTurn_pc_of_ne hq]
        refine h.place_of_touches htouch hq (forkTurn_ofile_of_ne hqnp) ?_
        intro r hr
        refine forkTurn_ofile_of_ne fun hrnp => hq ?_
        subst hrnp
        exact h.parent q p r hr (by rw [hpc]; rfl)
  · intro q hbusy
    by_cases hq : q = p
    · rw [hq]
      exact h.busy p (by simp [hpc])
    · rw [forkTurn_pc_of_ne hq] at hbusy
      exact h.busy q hbusy
  · intro q hq
    change (s.kernel.proc q).state = _ ∨ (s.kernel.proc q).state = _ at hq
    rw [forkTurn_ofile_of_ne]
    · exact h.cleared q hq
    · rintro rfl
      rw [hembryo] at hq
      rcases hq with hq | hq <;> cases hq
  · intro q r hr
    rw [forkTurn_child hpc] at hr
    exact h.embryo q r hr
  · intro q r np' hq hr
    rw [forkTurn_child hpc] at hq hr
    exact h.parent q r np' hq hr

end Forking

/-! ## Rules for the process table and for sleepers -/

theorem withKernel (h : Core s) {k : Kernel}
    (hbusy : ∀ q, s.pc q ≠ .user → (k.proc q).state = .runnable)
    (hcleared : ∀ q, (k.proc q).state = .unused ∨ (k.proc q).state = .zombie →
      ∀ fd, s.ofile q fd = none)
    (hembryo : ∀ q np, (s.pc q).child = some np → (k.proc np).state = .embryo) :
    Core (s.withKernel k) :=
  ⟨h.fault, h.good, h.refs, h.place, hbusy, hcleared, hembryo, h.parent⟩

/-- One process changes its state. -/
theorem modify (h : Core s) (q : Fin NPROC) {u : Proc → Proc}
    (hbusy : s.pc q ≠ .user → (u (s.kernel.proc q)).state = .runnable)
    (hcleared : (u (s.kernel.proc q)).state = .unused ∨ (u (s.kernel.proc q)).state = .zombie →
      ∀ fd, s.ofile q fd = none)
    (hembryo : ∀ r, (s.pc r).child = some q → (u (s.kernel.proc q)).state = .embryo) :
    Core (s.withKernel (s.kernel.modify q u)) := by
  refine h.withKernel ?_ ?_ ?_
  · intro r hr
    by_cases hrq : r = q
    · subst hrq
      rw [Kernel.modify_proc_self]
      exact hbusy hr
    · rw [Kernel.modify_proc_of_ne u hrq]
      exact h.busy r hr
  · intro r hr
    by_cases hrq : r = q
    · subst hrq
      rw [Kernel.modify_proc_self] at hr
      exact hcleared hr
    · rw [Kernel.modify_proc_of_ne u hrq] at hr
      exact h.cleared r hr
  · intro r np hnp
    by_cases hq : np = q
    · subst hq
      rw [Kernel.modify_proc_self]
      exact hembryo r hnp
    · rw [Kernel.modify_proc_of_ne u hq]
      exact h.embryo r np hnp

/-- The pages and the bookkeeping do not matter. -/
theorem congr {s' : State Page} (h : Core s) (hkernel : s'.kernel = s.kernel)
    (hofile : s'.ofile = s.ofile) (hftable : s'.ftable = s.ftable) (hpc : s'.pc = s.pc)
    (hfault : s'.fault = s.fault) : Core s' := by
  obtain ⟨k, o, t, pages, pc, fault, bytesIn, bytesOut⟩ := s'
  dsimp only at hkernel hofile hftable hpc hfault
  subst hkernel hofile hftable hpc hfault
  exact ⟨h.fault, h.good, h.refs, h.place, h.busy, h.cleared, h.embryo, h.parent⟩

theorem wrote [DecidableEq Page] (h : Core s) (pg : Page) (q : Pipe) (addr : List UInt8)
    (e : WriteEnd) : Core (s.wrote pg q addr e) := h.congr rfl rfl rfl rfl rfl

theorem took [DecidableEq Page] (h : Core s) (pg : Page) (q : Pipe) (bytes : List UInt8) :
    Core (s.took pg q bytes) := h.congr rfl rfl rfl rfl rfl

theorem makePipe [DecidableEq Page] (h : Core s) (pg : Page) (data : Fin PIPESIZE → UInt8) :
    Core (s.makePipe pg data) := h.congr rfl rfl rfl rfl rfl

theorem setPage [DecidableEq Page] (h : Core s) (pg : Page) (v : Option Pipe) :
    Core (s.setPage pg v) := h.congr rfl rfl rfl rfl rfl

/-- Two places inside of one call on a pipe, or one place. -/
inductive Woken : Pc Page → Pc Page → Prop
  | same {c : Pc Page} : Woken c c
  | inPipe {f : Fin NFILE} {pg : Page} {d d' : Pipes.Pc} : (d'.Writes ↔ d.Writes) →
      (d' = .outside → d = .outside) → Woken (.inPipe f pg d) (.inPipe f pg d')

theorem Woken.at {c d : Pc Page} (hw : Woken c d) (h : At o t p c) : At o t p d := by
  cases hw with
  | same => exact h
  | inPipe hwrites hin =>
      obtain ⟨hout, hcell, hend⟩ := h
      refine ⟨fun heq => hout (hin heq), hcell, ?_⟩
      rw [hend]
      congr 3
      exact propext hwrites.symm

theorem Woken.pend {c d : Pc Page} (hw : Woken c d) : d.pend = c.pend := by
  cases hw with
  | same => rfl
  | inPipe => rfl

theorem Woken.child {c d : Pc Page} (hw : Woken c d) : d.child = c.child := by
  cases hw with
  | same => rfl
  | inPipe => rfl

theorem Woken.same_refs {c d : Pc Page} (hw : Woken c d) : d.SameRefs c := by
  cases hw with
  | same => exact ⟨fun _ => rfl, rfl⟩
  | inPipe => exact ⟨fun _ => rfl, rfl⟩

theorem woken (h : Core s) {pc : Fin NPROC → Pc Page} (hw : ∀ p, Woken (s.pc p) (pc p)) :
    Core { s with pc := pc } := by
  refine ⟨h.fault, h.good, ?_, ?_, ?_, h.cleared, ?_, ?_⟩
  · intro f
    rw [h.refs f]
    exact tally_congr fun p => (weight_congr _ (hw p).same_refs f).symm
  · intro p
    refine ⟨(hw p).at (h.place p).knows, ?_⟩
    intro fd f hfd
    change (pc p).live (s.ofile p) fd = some f at hfd
    rw [(hw p).same_refs.live] at hfd
    refine ((h.place p).typed fd f hfd).imp_right ?_
    rintro ⟨omode, heq⟩
    have hp := hw p
    rw [heq] at hp
    change ∃ omode, pc p = .opened f omode
    generalize pc p = d at hp
    cases hp
    exact ⟨omode, rfl⟩
  · intro p hp
    refine h.busy p fun heq => hp ?_
    have hwp := hw p
    rw [heq] at hwp
    generalize hd : pc p = d at hwp
    cases hwp
    exact hd
  · intro p np hnp
    rw [(hw p).child] at hnp
    exact h.embryo p np hnp
  · intro p q np hp hq
    rw [(hw p).child] at hp
    rw [(hw q).child] at hq
    exact h.parent p q np hp hq

theorem woken_mapPipe [DecidableEq Page] {g : Pipes.Pc → Pipes.Pc}
    (hwrites : ∀ d, (g d).Writes ↔ d.Writes) (hin : ∀ d, g d = .outside → d = .outside)
    (pg : Page) (c : Pc Page) : Woken c (c.mapPipe pg g) := by
  cases c with
  | inPipe f pg' d =>
      by_cases hpg : pg' = pg
      · rw [Pc.mapPipe, if_pos hpg]
        exact .inPipe (hwrites d) (hin d)
      · rw [Pc.mapPipe, if_neg hpg]
        exact .same
  | _ => exact .same

theorem wokenReader_writes (d : Pipes.Pc) : (wokenReader d).Writes ↔ d.Writes := by
  cases d <;> rfl

theorem wokenWriter_writes (d : Pipes.Pc) : (wokenWriter d).Writes ↔ d.Writes := by
  cases d <;> rfl

theorem wokenReader_outside (d : Pipes.Pc) (h : wokenReader d = .outside) : d = .outside := by
  cases d <;> cases h
  rfl

theorem wokenWriter_outside (d : Pipes.Pc) (h : wokenWriter d = .outside) : d = .outside := by
  cases d <;> cases h
  rfl

theorem wakeReaders [DecidableEq Page] (h : Core s) (pg : Page) : Core (s.wakeReaders pg) :=
  h.woken fun p => woken_mapPipe wokenReader_writes wokenReader_outside pg (s.pc p)

theorem wakeWriters [DecidableEq Page] (h : Core s) (pg : Page) : Core (s.wakeWriters pg) :=
  h.woken fun p => woken_mapPipe wokenWriter_writes wokenWriter_outside pg (s.pc p)

theorem woken_wake (s : State Page) (p q : Fin NPROC) : Woken (s.pc q) ((s.wake p).pc q) := by
  unfold State.wake
  split
  · rename_i f pg c hpc
    by_cases hq : q = p
    · subst hq
      rw [State.goto_self, hpc]
      refine .inPipe ?_ fun hout => ?_
      · rw [wokenReader_writes, wokenWriter_writes]
      · exact wokenWriter_outside _ (wokenReader_outside _ hout)
    · rw [State.goto_of_ne hq]
      exact .same
  · exact .same

theorem wake_eq (s : State Page) (p : Fin NPROC) : s.wake p = { s with pc := (s.wake p).pc } := by
  unfold State.wake
  split <;> rfl

theorem wake (h : Core s) (p : Fin NPROC) : Core (s.wake p) := by
  rw [wake_eq]
  exact h.woken (woken_wake s p)

end Core

end OsSolutions.Files
