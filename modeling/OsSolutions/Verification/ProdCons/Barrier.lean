import OsSolutions.Verification.ProdCons.Progress

/-! # The start barrier and the clean-up

`sem_unlink` returns when nobody has the semaphore open any more. For "waitc" this holds the
children back until all of them have been forked; for the others the children are gone. -/

namespace OsSolutions.ProdCons

open Transition

variable {main : Main} {clean : Prop} {st st' : State main} {a : Act main} {p : Proc main}

/-- Past `sem_unlink("waitc")`, as a child. -/
def Pc.returned : Pc → Bool
  | .loop | .body _ | .exit _ | .exited | .reaped => true
  | _ => false

/-- The call `sem_unlink(sd)` of the process has returned. -/
def UnlinkedBy : Proc main → Pc → Fin NOSEM → Prop
  | none, .semClose x, sd | none, .semUnlink x, sd | none, .unlinking x _, sd
  | none, .unlinkLoop x _, sd => sd ≠ waitcd ∧ sd < x
  | none, .exit _, sd | none, .exited, sd => sd ≠ waitcd
  | none, _, _ => False
  | some _, c, sd => sd = waitcd ∧ c.returned = true

/-- `sem_unlink` has found the slot of the same number as the descriptor. -/
def AtSlot (st : State main) : Prop :=
  ∀ p sd s, st.pc p = .unlinking sd s ∨ st.pc p = .unlinkLoop sd s → s = slotOf sd

/-- What `sem_unlink` has freed stays free, and nobody has it open. -/
def Released (st : State main) : Prop :=
  ∀ p sd, UnlinkedBy p (st.pc p) sd →
    (st.table (slotOf sd)).linked = false ∧ holders st.pc sd = 0

/-! ## The slot that is found -/

theorem Tidy.opened_slot (h : Tidy st) (hd : Descr clean st) (hn : ∀ ds, st.pc none ≠ .semOpen ds)
    (sd : Fin NOSEM) : st.opened sd = some (slotOf sd) := by
  obtain ⟨s, hs⟩ := hd.isOpen sd fun ds hds => absurd hds (hn ds)
  rw [hs, h.opened_eq hs]

/-- Slots with leftover names come after those of `main`. -/
theorem Tidy.finds (h : Tidy st) (hd : Descr clean st) (hn : ∀ ds, st.pc none ≠ .semOpen ds)
    (sd : Fin NOSEM) :
    semUnlinkScan st.table (semName sd) (List.finRange NSEM) none = some (slotOf sd) := by
  rw [semUnlinkScan_eq, find?_finRange_eq_some]
  refine ⟨(hd.matches_iff (h.opened_slot hd hn sd)).mpr rfl, ?_⟩
  intro u hu
  have hlt : u.val < sd.val := hu
  have hopen := h.opened_slot hd hn ⟨u.val, hlt.trans sd.isLt⟩
  have hslot : slotOf ⟨u.val, hlt.trans sd.isLt⟩ = u := rfl
  rw [hslot] at hopen
  rw [Bool.eq_false_iff]
  intro hmatch
  have heq := (hd.matches_iff hopen).mp hmatch
  rw [← heq] at hlt
  exact Nat.lt_irrefl _ hlt

theorem step_atSlot (h : AtSlot st) (ht : Tidy st) (hd : Descr clean st) (hc : Control st.pc)
    (hs : Step st a st') : AtSlot st' := by
  intro p sd s hp
  rcases hs.goes p with heq | hgo
  · exact h p sd s (heq ▸ hp)
  generalize st'.pc p = c at hp hgo
  cases hgo with
  | found hold hscan =>
      have hn := hc.not_opening (p := p) (by simp [hold, Pc.Born]) (by simp [hold])
      rw [ht.finds hd hn] at hscan
      rcases hp with heq | heq
      · cases heq
        exact (Option.some.inj hscan).symm
      · cases heq
  | unlinkSleeps hold =>
      rcases hp with heq | heq
      · cases heq
      · cases heq
        exact h p sd s (hold.imp (fun hu => hu.1) fun hl => hl.1)
  | @opened ds _ =>
      unfold Proc.afterOpen at hp
      split at hp <;> simp at hp
  | closes hcl =>
      obtain ⟨hu, hl, _⟩ := closes_cases hcl
      exact absurd hp (not_or.mpr ⟨hu sd s, hl sd s⟩)
  | notFound =>
      obtain ⟨hu, hl, _⟩ := afterUnlink_cases p _
      exact absurd hp (not_or.mpr ⟨hu sd s, hl sd s⟩)
  | unlinked =>
      obtain ⟨hu, hl, _⟩ := afterUnlink_cases p _
      exact absurd hp (not_or.mpr ⟨hu sd s, hl sd s⟩)
  | _ => simp at hp

/-! ## What has been unlinked -/

theorem unlinkedBy_afterUnlink {sd x : Fin NOSEM} (hat : StandsAt p (.semUnlink sd))
    (h : UnlinkedBy p (p.afterUnlink sd) x) : UnlinkedBy p (.semUnlink sd) x ∨ x = sd := by
  cases p with
  | none =>
      simp only [Proc.afterUnlink, if_true] at h
      split at h
      · obtain ⟨hne, hlt⟩ := h
        rw [Fin.lt_def] at hlt
        rcases Nat.lt_or_eq_of_le (Nat.le_of_lt_succ hlt) with hlt' | heq
        · exact .inl ⟨hne, hlt'⟩
        · exact .inr (Fin.ext heq)
      · rename_i hlast
        rcases Nat.lt_or_ge x.val sd.val with hlt | hge
        · exact .inl ⟨h, hlt⟩
        · right
          have := x.isLt
          exact Fin.ext (by omega)
  | some i =>
      obtain ⟨rfl, _⟩ := h
      have hsd : sd = waitcd := hat
      exact .inr hsd.symm

theorem unlinkedBy_closes {sd x : Fin NOSEM} {next : Pc} (hc : Closes st p sd next)
    (h : UnlinkedBy p next x) : UnlinkedBy p (st.pc p) x := by
  rcases hc with ⟨hp, rfl⟩ | ⟨hp, rfl⟩
  · rw [hp]
    cases p with
    | none =>
        by_cases hsd : sd = waitcd
        · simp [Proc.afterClose, hsd, UnlinkedBy] at h
        · simpa [Proc.afterClose, hsd, UnlinkedBy] using h
    | some i => simp [Proc.afterClose, UnlinkedBy, Pc.returned] at h
  · rw [hp]
    cases p <;> simpa [UnlinkedBy, Pc.returned] using h

/-- Inside the loop of `sem_unlink` nothing more has been unlinked. -/
theorem Passes.unlinkedBy_iff {sd x : Fin NOSEM} {s : Fin NSEM} {t : STable}
    (h : Passes st p sd s t) : UnlinkedBy p (st.pc p) x ↔ UnlinkedBy p (.semUnlink sd) x := by
  rcases h with ⟨hp, _⟩ | ⟨hp, _⟩ <;> rw [hp] <;> cases p <;> exact Iff.rfl

/-- A call of `sem_unlink` returns after a pass on a slot without references, or because
there is no slot of that name. -/
theorem newly_unlinked (hs : Step st a st') (hc : Control st.pc) {q : Proc main} {x : Fin NOSEM}
    (h : UnlinkedBy q (st'.pc q) x) :
    UnlinkedBy q (st.pc q) x ∨
      (∃ s t, Passes st q x s t ∧ (t s).ref = 0 ∧ (st'.table s).linked = false) ∨
      (st.pc q = .semUnlink x ∧
        semUnlinkScan st.table (semName x) (List.finRange NSEM) none = none) := by
  rcases hs.goes q with heq | hgo
  · exact .inl (heq ▸ h)
  generalize st'.pc q = c at h hgo
  have hat := hc.stands q
  have hbody : st.pc q = .loop ∨ (∃ ph, st.pc q = .body ph) → UnlinkedBy q (st.pc q) x := by
    intro hp
    cases q with
    | none => rcases hp with hp | ⟨ph, hp⟩ <;> rw [hp] at hat <;> exact absurd hat id
    | some i => exact ⟨h.1, by rcases hp with hp | ⟨ph, hp⟩ <;> rw [hp] <;> rfl⟩
  cases hgo with
  | @opened sd hp =>
      unfold Proc.afterOpen at h
      cases q <;> split at h <;> simp [UnlinkedBy, Pc.returned] at h
  | closes hcl => exact .inl (unlinkedBy_closes hcl h)
  | @found sd s hp _ => exact .inl (by rw [hp]; cases q <;> exact h)
  | notFound hp hscan =>
      rw [hp] at hat
      rcases unlinkedBy_afterUnlink hat h with hold | rfl
      · exact .inl (hp ▸ hold)
      · exact .inr (.inr ⟨hp, hscan⟩)
  | @unlinked sd s t hp hr hl =>
      have hstands : StandsAt q (.semUnlink sd) := by
        rcases hp with ⟨hp, _⟩ | ⟨hp, _⟩ <;> rw [hp] at hat <;> cases q <;> exact hat
      rcases unlinkedBy_afterUnlink hstands h with hold | rfl
      · exact .inl (hp.unlinkedBy_iff.mpr hold)
      · exact .inr (.inl ⟨s, t, hp, hr, hl⟩)
  | unlinkSleeps hp => exact .inl (hp.unlinkedBy_iff.mpr (by cases q <;> exact h))
  | body hp => exact .inl (hbody hp)
  | looped hp => exact .inl (hbody (.inr ⟨_, hp⟩))
  | produced hp => exact .inl (hbody (.inl hp))
  | emptied hp => exact .inl (hbody (.inl hp))
  | waited hp =>
      cases q with
      | none =>
          obtain ⟨hne, hlt⟩ := h
          exact absurd (Fin.ext (Nat.lt_one_iff.mp hlt)) hne
      | some i => simp [UnlinkedBy, Pc.returned] at h
  | exited hp => exact .inl (by rw [hp]; cases q <;> exact h)
  | reaped hp =>
      cases q with
      | none => exact absurd h id
      | some i => exact .inl ⟨h.1, by rw [hp]; rfl⟩
  | _ => cases q <;> simp [UnlinkedBy, Pc.returned] at h

/-! ## Every step -/

/-- Once nobody has `sd` open, nobody opens it again. -/
theorem step_holders_zero (ht : Tidy st) (hd : Descr clean st) (hd' : Descr clean st')
    (hc : Control st.pc) (hs : Step st a st') (hn : ∀ ds, st.pc none ≠ .semOpen ds)
    {sd : Fin NOSEM} (h : holders st.pc sd = 0) : holders st'.pc sd = 0 := by
  have hopen := ht.opened_slot hd hn sd
  obtain ⟨hopened, hslots⟩ := step_keeps_slot hs hn fun p ds => only_parent_opens hc
  have href : (st'.table (slotOf sd)).ref = (st.table (slotOf sd)).ref := by
    apply (hslots (slotOf sd)).2
    intro p x hosem
    obtain ⟨hx, hheld⟩ := hd.opened_of_osem hosem
    obtain rfl := hd.injective x sd _ hx hopen
    have hpos := holders_pos hheld
    omega
  rw [hd.ref sd _ hopen, hd'.ref sd _ (hopened ▸ hopen), h] at href
  exact_mod_cast href

theorem step_released (h : Released st) (hat : AtSlot st) (ht : Tidy st) (hd : Descr clean st)
    (hd' : Descr clean st') (hc : Control st.pc) (hs : Step st a st') : Released st' := by
  intro q x hx
  rcases opening_or_later hc hs with ⟨sd, rfl, hp, rfl⟩ | hn
  · exfalso
    have hpc : (st.semOpen none sd).pc = Function.update st.pc none (Proc.afterOpen sd) := rfl
    rw [hpc] at hx
    cases q with
    | none =>
        rw [Function.update_self] at hx
        unfold Proc.afterOpen at hx
        split at hx <;> exact hx
    | some i =>
        have hmade := hc.made i
        rw [hp] at hmade
        have hi : st.pc (some i) = .embryo 0 := hmade
        simp [hi, UnlinkedBy, Pc.returned] at hx
  · have hopen := ht.opened_slot hd hn x
    rcases newly_unlinked hs hc hx with hold | ⟨s, t, hp, hr, hfree⟩ | ⟨_, hscan⟩
    · obtain ⟨hfree, hzero⟩ := h q x hold
      obtain ⟨_, hslots⟩ := step_keeps_slot hs hn fun p ds => only_parent_opens hc
      refine ⟨?_, step_holders_zero ht hd hd' hc hs hn hzero⟩
      exact (hslots (slotOf x)).1.elim (fun heq => heq.trans hfree) id
    · obtain rfl : s = slotOf x := hat q x s (hp.imp (fun hu => hu.1) fun hl => hl.1)
      rw [(hp.fields _).2.1, hd.ref x _ hopen] at hr
      exact ⟨hfree, step_holders_zero ht hd hd' hc hs hn (by exact_mod_cast hr)⟩
    · rw [ht.finds hd hn] at hscan
      cases hscan

/-! ## Every run -/

theorem released_of_reachable {table : STable} (hfree : AllFree table)
    (h : Reachable step Free (start main table) st) : Released st := by
  suffices hall : AtSlot st ∧ Released st from hall.2
  induction h with
  | refl =>
      refine ⟨?_, ?_⟩
      · rintro p sd s (hp | hp) <;> cases p <;> cases hp
      · intro p sd hp
        cases p with
        | none => exact absurd hp id
        | some i => cases hp.2
  | @tail t t' a hreach _ hs ih =>
      obtain ⟨_, hc, hd, ht⟩ := tidy_of_reachable hfree hreach
      obtain ⟨_, _, hd', _⟩ := tidy_of_reachable hfree (hreach.tail (a := a) trivial hs)
      have hstep := step_cases hs
      exact ⟨step_atSlot ih.1 ht hd hc hstep, step_released ih.2 ih.1 ht hd hd' hc hstep⟩

/-- All forks are over, and the process has closed its copy of `waitcd`. -/
def ClosedWaitc : Pc → Prop
  | .semOpen _ | .fork _ | .embryo _ => False
  | .semClose sd => sd ≠ waitcd
  | _ => True

theorem closedWaitc_of_holders (hc : Control st.pc) (h : holders st.pc waitcd = 0)
    (hn : ∀ ds, st.pc none ≠ .semOpen ds) (p : Proc main) : ClosedWaitc (st.pc p) := by
  have hnot : ∀ q, holds q (st.pc q) waitcd = false := by
    intro q
    have hq := tally_eq_zero_iff.mp h q
    simpa using hq
  have hlater : ∀ k, st.pc none ≠ .fork k := by
    intro k hk
    have hq := hnot none
    rw [hk] at hq
    cases hq
  have hp := hnot p
  have hat := hc.stands p
  cases hpc : st.pc p with
  | semOpen sd =>
      obtain rfl := only_parent_opens hc hpc
      exact absurd hpc (hn sd)
  | fork k =>
      rw [hpc] at hp
      cases hp
  | embryo k =>
      rw [hpc] at hat
      cases p with
      | none => exact absurd hat id
      | some i =>
          have hmade := hc.made i
          rw [hpc] at hmade
          cases hpar : st.pc none with
          | semOpen sd => exact absurd hpar (hn sd)
          | fork n => exact absurd hpar (hlater n)
          | _ =>
              rw [hpar] at hmade
              exact absurd rfl (hmade k)
  | semClose sd =>
      rw [hpc] at hp
      rintro rfl
      simp [holds] at hp
  | _ => trivial

/-- A child that has come out of `sem_unlink("waitc")` finds that all children have been
forked, and that they and the parent have closed their copies; and when the parent exits,
every slot is free and closed again. -/
theorem clean_of_reachable (main : Main) (table : STable) (hprod : 1 ≤ main.prodNum)
    (hfree : AllFree table) (st : State main) (h : Reachable step Free (start main table) st) :
    (∀ i, (st.pc (some i)).returned = true →
      ∀ p, ClosedWaitc (st.pc p) ∧ st.osem p waitcd = none) ∧
      ((st.pc none).gone = true → AllFree st.table) := by
  obtain ⟨_, hc, hd, ht⟩ := tidy_of_reachable hfree h
  have hreleased := released_of_reachable hfree h
  have hchild : ∀ i, (st.pc (some i)).returned = true →
      (st.table (slotOf waitcd)).linked = false ∧ holders st.pc waitcd = 0 :=
    fun i hi => hreleased (some i) waitcd ⟨rfl, hi⟩
  constructor
  · intro i hi p
    obtain ⟨_, hzero⟩ := hchild i hi
    have hn := hc.not_opening (p := some i)
      (by intro k hk; rw [hk] at hi; cases hi) (by intro ds hds; rw [hds] at hi; cases hi)
    refine ⟨closedWaitc_of_holders hc hzero hn p, ?_⟩
    have hp := tally_eq_zero_iff.mp hzero p
    have hnot : holds p (st.pc p) waitcd = false := by simpa using hp
    simp [hd.osem, hnot]
  · intro hgone u
    have hat := hc.stands none
    have hcases : (∃ k, st.pc none = .exit k) ∨ st.pc none = .exited := by
      cases hp : st.pc none with
      | exit k => exact .inl ⟨k, rfl⟩
      | exited => exact .inr rfl
      | reaped =>
          rw [hp] at hat
          exact absurd hat id
      | _ => simp [hp, Pc.gone] at hgone
    have hn : ∀ ds, st.pc none ≠ .semOpen ds := by
      rcases hcases with ⟨k, hk⟩ | hk <;> simp [hk]
    have hreaped := hc.all_reaped (by rcases hcases with ⟨k, hk⟩ | hk <;> rw [hk] <;> rfl)
    have hone : 0 < main.children := by
      unfold Main.children
      omega
    -- "waitc" is freed by the children, the other semaphores by the parent
    have hall : ∀ sd, (st.table (slotOf sd)).linked = false ∧ holders st.pc sd = 0 := by
      intro sd
      by_cases hsd : sd = waitcd
      · subst hsd
        exact hchild ⟨0, hone⟩ (by rw [hreaped]; rfl)
      · apply hreleased none sd
        rcases hcases with ⟨k, hk⟩ | hk <;> rw [hk] <;> exact hsd
    by_cases hu : ∃ sd, st.opened sd = some u
    · obtain ⟨sd, hsd⟩ := hu
      obtain ⟨hlinked, hzero⟩ := hall sd
      obtain rfl := ht.opened_eq hsd
      refine ⟨hlinked, ?_⟩
      rw [hd.ref sd _ hsd, hzero]
      rfl
    · exact ht.spare u fun sd hsd => hu ⟨sd, hsd⟩

theorem clean_of_reachable_wholeRun : ∃ st : State ⟨1, 1, 1, 1⟩,
    (st.pc none).gone = true ∧ (∀ i, (st.pc (some i)).returned = true) ∧
      (∀ i, (st.pc (some i)).returned = true →
        ∀ p, ClosedWaitc (st.pc p) ∧ st.osem p waitcd = none) ∧
      ((st.pc none).gone = true → AllFree st.table) := by
  have hrun : (run step (start ⟨1, 1, 1, 1⟩ STable.zero) wholeRun).map
      (fun st => decide ((st.pc none).gone = true ∧ ∀ i, (st.pc (some i)).returned = true)) =
        some true := by decide +kernel
  obtain ⟨st, hst, hpc⟩ := Option.map_eq_some_iff.mp hrun
  obtain ⟨hgone, hreturned⟩ := of_decide_eq_true hpc
  exact ⟨st, hgone, hreturned, clean_of_reachable ⟨1, 1, 1, 1⟩ STable.zero (by decide)
    allFree_zero st (reachable_of_run hst)⟩

end OsSolutions.ProdCons
