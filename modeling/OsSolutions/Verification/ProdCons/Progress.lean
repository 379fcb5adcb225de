import OsSolutions.Verification.ProdCons.Sleepers
import Mathlib.Algebra.BigOperators.Fin

/-! # Completion

Nobody is left asleep for good: if nothing could move, the counts of the semaphores would
not add up. When everybody has left the loops, every message has been produced and consumed. -/

namespace OsSolutions.ProdCons

open Transition

variable {main : Main} {clean : Prop} {st st' : State main} {a : Act main} {p : Proc main}

structure Life (st : State main) : Prop extends Inv True st where
  rounds : Rounds st
  emptied : Emptied st
  sleepers : Sleepers st

theorem life_of_reachable {table : STable} (htotal : main.total < 2 ^ 31)
    (href : ∀ s, 0 ≤ (table s).ref) (h : Reachable step Creates (start main table) st) :
    Life st := by
  apply h.invariant
  · exact ⟨⟨control_start main table, descr_start main fun _ => href, ledger_start main table⟩,
      rounds_start main table, emptied_start main table, sleepers_start main table⟩
  · intro st a st' hi hok hs
    have hstep := step_cases hs
    exact ⟨⟨step_control hi.control hstep, step_descr hi.descr hi.control hok hstep,
      step_ledger htotal hi.ledger hi.descr hi.control hok hstep⟩, step_rounds hi.rounds hstep,
      step_emptied hi.emptied hi.descr hi.control hstep,
      step_sleepers hi.sleepers hi.descr hi.control hi.ledger hs⟩

/-! ## Sums -/

theorem tally_producers (m : ℕ) :
    tally (fun p : Proc main => if p.isProducer = true then m else 0) = main.prodNum * m := by
  have hsplit : ∀ f : Fin (main.prodNum + main.consNum) → ℕ,
      ∑ i, f i = ∑ i, f (Fin.castAdd main.consNum i) + ∑ i, f (Fin.natAdd main.prodNum i) :=
    fun f => Fin.sum_univ_add f
  rw [tally, Fintype.sum_option]
  have hrest := hsplit fun i => if Proc.isProducer (some i : Proc main) = true then m else 0
  rw [show (∑ i : Fin main.children, if Proc.isProducer (some i : Proc main) = true then m else 0) =
    ∑ i : Fin (main.prodNum + main.consNum),
      if Proc.isProducer (some i : Proc main) = true then m else 0 from rfl, hrest]
  simp [Proc.isProducer]

/-- Consumers that have claimed a message and not consumed it. -/
def claiming (p : Proc main) (c : Pc) (_ : ℕ) : ℕ :=
  if p.isProducer = true then 0 else c.inBody.toNat

theorem total_debit_totald (st : State main) :
    total (debit totald) st = total (credit buffa) st + total claiming st := by
  rw [total, total, total, ← tally_add]
  apply tally_congr
  intro p
  simp only [debit, credit, claiming]
  split <;> simp

theorem total_credit_totald (st : State main) : total (credit totald) st = 0 :=
  tally_eq_zero_iff.mpr fun _ => rfl

theorem total_eq_zero {f : Proc main → Pc → ℕ → ℕ} (h : ∀ q, f q (st.pc q) (st.rounds q) = 0) :
    total f st = 0 :=
  tally_eq_zero_iff.mpr h

theorem Rounds.le_total (h : Rounds st) : total (credit buffb) st ≤ main.total := by
  rw [Main.total, ← tally_producers main.msgNumPerProd]
  apply tally_le
  intro q
  simp only [credit]
  split
  · rename_i hq
    exact (h q hq).1
  · exact le_rfl

theorem Rounds.eq_total (h : Rounds st)
    (hgone : ∀ q, q.isProducer = true → (st.pc q).gone = true) :
    total (credit buffb) st = main.total := by
  rw [Main.total, ← tally_producers main.msgNumPerProd]
  apply tally_congr
  intro q
  simp only [credit]
  split
  · rename_i hq
    exact (h q hq).2.2 (hgone q hq)
  · rfl

/-- The semaphores when nobody is past the first wait of a round. -/
theorem Ledger.settled (h : Ledger st) (hout : ∀ q, (st.pc q).inside = false)
    {a b t w : Fin NSEM} (ha : st.opened buffa = some a) (hb : st.opened buffb = some b)
    (ht : st.opened totald = some t) (hw : st.opened write = some w) :
    (st.table a).count.toInt + (st.table b).count.toInt = MAX_MSG ∧
      (st.table b).count.toInt + total (credit buffa) st = total (credit buffb) st ∧
      (st.table t).count.toInt + total (credit buffa) st + total claiming st = main.total ∧
      (st.table w).count.toInt = 1 ∧
      st.written = total (credit buffb) st ∧ st.taken = total (credit buffa) st := by
  have hwrote : ∀ q, (st.pc q).wrote = false ∧ (st.pc q).inWrite = false := by
    intro q
    have hq := hout q
    cases hpc : st.pc q with
    | body ph =>
        rw [hpc] at hq
        cases ph <;> first | exact ⟨rfl, rfl⟩ | cases hq
    | _ => exact ⟨rfl, rfl⟩
  have hbuff := h.buffers ha hb
  have hmutex := h.mutex hw
  have hbb := h.balance buffb b hb
  have hbt := h.balance totald t ht
  have hproducing : total producing st = 0 := total_eq_zero fun q => by simp [producing, hout]
  have hconsuming : total consuming st = 0 := total_eq_zero fun q => by simp [consuming, hout]
  have hwriting : total writing st = 0 := total_eq_zero fun q => by simp [writing, hwrote]
  have hdb := total_debit_buffb st
  have hdt := total_debit_totald st
  have hct := total_credit_totald st
  have hinit : main.init buffb = 0 ∧ main.init totald = main.total := ⟨rfl, rfl⟩
  have hwritten : total produced st = total (credit buffb) st := by
    apply tally_congr
    intro q
    simp [produced, credit, messages, hwrote]
  have htaken : total consumed st = total (credit buffa) st := by
    apply tally_congr
    intro q
    simp [consumed, credit, messages, hwrote]
  refine ⟨by omega, by omega, by omega, by omega, ?_, ?_⟩
  · rw [h.written, hwritten]
  · rw [h.taken, htaken]

/-! ## When everybody has left the loops -/

/-- All producers and consumers have left their loops. -/
def AllGone (st : State main) : Prop := ∀ i, (st.pc (some i)).gone = true

theorem gone_outside {c : Pc} (h : c.gone = true) : c.inBody = false := by
  cases c with
  | body ph => cases h
  | _ => rfl

theorem inside_of_outside {c : Pc} (h : c.inBody = false) : c.inside = false := by
  cases c with
  | body ph => cases h
  | _ => rfl

/-- The parent is never in the loops. -/
theorem Control.parent_outside (h : Control st.pc) : (st.pc none).inBody = false := by
  have hat := h.stands none
  cases hp : st.pc none with
  | body ph =>
      rw [hp] at hat
      exact absurd hat id
  | _ => rfl

/-- The first consumer. -/
theorem exists_consumer (hcons : 1 ≤ main.consNum) :
    ∃ i : Fin main.children, Proc.isProducer (some i : Proc main) = false := by
  refine ⟨⟨main.prodNum, ?_⟩, ?_⟩
  · unfold Main.children
    omega
  · simp [Proc.isProducer]

theorem Life.finished (h : Life st) (hcons : 1 ≤ main.consNum) (hgone : AllGone st)
    {a b t w : Fin NSEM} (ha : st.opened buffa = some a) (hb : st.opened buffb = some b)
    (ht : st.opened totald = some t) (hw : st.opened write = some w) :
    st.written = main.total ∧ st.taken = main.total ∧
      (st.table a).count.toInt = MAX_MSG ∧ (st.table b).count.toInt = 0 ∧
      (st.table t).count.toInt = 0 ∧ (st.table w).count.toInt = 1 := by
  have hout : ∀ q, (st.pc q).inBody = false := by
    intro q
    cases q with
    | none => exact h.control.parent_outside
    | some i => exact gone_outside (hgone i)
  obtain ⟨hbuff, hfilled, hclaimed, hwrite, hwritten, htaken⟩ :=
    h.ledger.settled (fun q => inside_of_outside (hout q)) ha hb ht hw
  have hclaiming : total claiming st = 0 := total_eq_zero fun q => by simp [claiming, hout]
  have hproduced : total (credit buffb) st = main.total := by
    apply h.rounds.eq_total
    intro q hq
    cases q with
    | none => cases hq
    | some i => exact hgone i
  obtain ⟨i, hi⟩ := exists_consumer hcons
  have hempty := h.emptied i hi (hgone i) t ht
  have hnt := h.ledger.nonneg totald t ht
  have hnb := h.ledger.nonneg buffb b hb
  refine ⟨?_, ?_, ?_, ?_, ?_, ?_⟩ <;> omega

/-! ## Deadlocks -/

/-- Some process can take a step. -/
def Moves (st : State main) : Prop := ∃ a st', step st a = some st'

/-- Everybody has exited, and the parent has waited for all its children. -/
def Done (st : State main) : Prop := st.pc none = .exited ∧ ∀ i, st.pc (some i) = .reaped

/-- A process that is awake can run, unless it waits to be born or is gone for good. -/
theorem moves_of_awake (hc : Control st.pc) (hawake : st.chan p = none)
    (hborn : (st.pc p).Born) (hexited : st.pc p ≠ .exited) (hreaped : st.pc p ≠ .reaped) :
    Moves st := by
  have hrun : ∀ {st'}, exec st p = some st' → Moves st := by
    intro st' h
    exact ⟨.run p, st', by simp [step, hawake, h]⟩
  have hat := hc.stands p
  cases hp : st.pc p with
  | semOpen sd => exact hrun (by simp [exec, hp]; rfl)
  | fork i =>
      rw [hp] at hat
      cases p with
      | some j => exact absurd hat id
      | none =>
          by_cases hi : i < main.children
          · have hmade := hc.made ⟨i, hi⟩
            rw [hp] at hmade
            obtain ⟨k, hk⟩ := hmade.2.2 rfl
            exact hrun (by simp [exec, hp, hi, hk]; rfl)
          · exact hrun (by simp [exec, hp, hi]; rfl)
  | embryo k => exact absurd hp (hborn k)
  | semClose sd => exact hrun (by simp [exec, hp]; rfl)
  | semUnlink sd =>
      cases hscan : semUnlinkScan st.table (semName sd) (List.finRange NSEM) none with
      | some s => exact hrun (by simp [exec, hp, hscan]; rfl)
      | none => exact hrun (by simp [exec, hp, hscan]; rfl)
  | unlinking sd s => exact hrun (by simp [exec, hp]; rfl)
  | unlinkLoop sd s => exact hrun (by simp [exec, hp]; rfl)
  | loop => exact hrun (by simp [exec, hp]; rfl)
  | body ph => exact hrun (by simp [exec, hp]; rfl)
  | wait i =>
      rw [hp] at hat
      cases p with
      | some j => exact absurd hat id
      | none =>
          by_cases hi : i < main.children
          · by_cases hz : ∃ c, st.pc (some c) = .exited
            · obtain ⟨c, hcz⟩ := hz
              exact ⟨.reap c, _, by simp [step, hp, hi, hawake, hcz]; rfl⟩
            · exact hrun (by simp [exec, hp, hi, hz]; rfl)
          · exact hrun (by simp [exec, hp, hi]; rfl)
  | exit k => exact hrun (by simp [exec, hp]; rfl)
  | exited => exact absurd hp hexited
  | reaped => exact absurd hp hreaped

/-- Whoever waits in `sem_unlink` waits for somebody who has the semaphore open. -/
theorem Life.holder_of_unlinking (h : Life st) (hn : ∀ ds, st.pc none ≠ .semOpen ds)
    {sd : Fin NOSEM} {s : Fin NSEM} (hp : st.pc p = .unlinkLoop sd s) (hr : (st.table s).ref ≠ 0) :
    ∃ q, holds q (st.pc q) sd = true := by
  obtain ⟨u, hu⟩ := h.descr.isOpen sd fun ds hds => absurd hds (hn ds)
  have hmatch := h.sleepers.found p sd s (.inr hp)
  have hsu : s = u := (h.descr.only trivial sd u hu s hmatch).resolve_right hr
  subst hsu
  by_contra hnone
  apply hr
  rw [h.descr.ref sd s hu]
  norm_cast
  apply tally_eq_zero_iff.mpr
  intro q
  rw [if_neg fun hq => hnone ⟨q, hq⟩]

/-- When `write` has no unit, somebody is inside and does not sleep. -/
theorem Life.moves_of_write (h : Life st) {w : Fin NSEM} (hw : st.opened write = some w)
    (hle : (st.table w).count.toInt ≤ 0) : Moves st := by
  have hmutex := h.ledger.mutex hw
  have hone : total writing st ≠ 0 := by omega
  obtain ⟨q, hq⟩ : ∃ q, writing q (st.pc q) (st.rounds q) ≠ 0 := by
    by_contra hall
    exact hone (total_eq_zero fun q => by_contra fun hq => hall ⟨q, hq⟩)
  have hin : st.pc q = .body .message ∨ st.pc q = .body .postWrite := by
    cases hpc : st.pc q with
    | body ph => cases ph <;> simp [writing, hpc, Pc.inWrite] at hq ⊢
    | _ => simp [writing, hpc, Pc.inWrite] at hq
  have hawake : st.chan q = none := by
    rcases hin with hin | hin <;>
      exact h.sleepers.awake (by simp [hin]) (by simp [hin]) (by simp [hin]) (by simp [hin])
  rcases hin with hin | hin <;>
    exact moves_of_awake h.control hawake (by simp [hin, Pc.Born]) (by simp [hin]) (by simp [hin])

/-- While `sem_unlink("waitc")` waits after the forks, a child is about to close its copy. -/
theorem Life.moves_of_waitc (h : Life st) {n : ℕ} (hp : st.pc none = .wait n)
    {s : Fin NSEM} (hpc : st.pc p = .unlinkLoop waitcd s) (hr : (st.table s).ref ≠ 0) :
    Moves st := by
  obtain ⟨q, hq⟩ := h.holder_of_unlinking (by simp [hp]) hpc hr
  cases q with
  | none => simp [hp, holds] at hq
  | some j =>
      have hclose : st.pc (some j) = .semClose waitcd := by
        have hat := h.control.stands (some j)
        cases hpcj : st.pc (some j) with
        | semClose x =>
            rw [hpcj] at hat
            rw [show x = waitcd from hat]
        | embryo k =>
            have hmade := h.control.made j
            rw [hp] at hmade
            exact absurd hpcj (hmade k)
        | semOpen x =>
            rw [hpcj] at hat
            exact absurd hat id
        | fork k =>
            rw [hpcj] at hat
            exact absurd hat id
        | _ => simp [hpcj, holds] at hq
      have hawake : st.chan (some j) = none :=
        h.sleepers.awake (by simp [hclose]) (by simp [hclose]) (by simp [hclose])
          (by simp [hclose])
      exact moves_of_awake h.control hawake (by simp [hclose, Pc.Born]) (by simp [hclose])
        (by simp [hclose])

/-- The children of a parent that waits, when nothing moves: all that are left wait for a
unit of their first semaphore. -/
theorem Life.left_of_stuck (h : Life st) (hstuck : ¬ Moves st) {n : ℕ}
    (hp : st.pc none = .wait n) (hnone : ∀ c, st.pc (some c) ≠ .exited) (c : Fin main.children) :
    st.pc (some c) = .reaped ∨ (st.pc (some c) = .body .waitBuff ∧
      ∀ s, st.opened (Proc.waits (some c)) = some s → (st.table s).count.toInt ≤ 0) := by
  have hborn : (st.pc (some c)).Born := by
    have hmade := h.control.made c
    rwa [hp] at hmade
  by_cases hreaped : st.pc (some c) = .reaped
  · exact .inl hreaped
  right
  cases hchan : st.chan (some c) with
  | none => exact absurd (moves_of_awake h.control hchan hborn (hnone c) hreaped) hstuck
  | some d =>
      have hdoze := h.sleepers.dozes (some c) d hchan
      cases d with
      | sem s =>
          obtain ⟨sd, ⟨hpc, rfl⟩ | ⟨hpc, rfl⟩, hopen, hle⟩ := hdoze
          · refine ⟨hpc, fun u hu => ?_⟩
            obtain rfl : s = u := Option.some.inj (hopen.symm.trans hu)
            exact hle
          · exact absurd (h.moves_of_write hopen hle) hstuck
      | stable =>
          obtain ⟨sd, s, hpc, hr⟩ := hdoze
          obtain rfl : sd = waitcd := by
            have hat := h.control.stands (some c)
            rw [hpc] at hat
            exact hat
          exact absurd (h.moves_of_waitc hp hpc hr) hstuck
      | proc r =>
          obtain ⟨hc, _⟩ := hdoze
          cases hc

/-- A parent that waits has somebody to wait for. -/
theorem Life.moves_of_waiting (h : Life st) (hcons : 1 ≤ main.consNum) {n : ℕ}
    (hp : st.pc none = .wait n) (hlt : n < main.children)
    (hnone : ∀ c, st.pc (some c) ≠ .exited) : Moves st := by
  by_contra hstuck
  have hleft := h.left_of_stuck hstuck hp hnone
  have hn : ∀ ds, st.pc none ≠ .semOpen ds := by simp [hp]
  obtain ⟨a, ha⟩ := h.descr.isOpen buffa fun ds hds => absurd hds (hn ds)
  obtain ⟨b, hb⟩ := h.descr.isOpen buffb fun ds hds => absurd hds (hn ds)
  obtain ⟨t, ht⟩ := h.descr.isOpen totald fun ds hds => absurd hds (hn ds)
  obtain ⟨w, hw⟩ := h.descr.isOpen write fun ds hds => absurd hds (hn ds)
  have hout : ∀ q, (st.pc q).inside = false := by
    intro q
    cases q with
    | none => exact inside_of_outside h.control.parent_outside
    | some i => rcases hleft i with hi | ⟨hi, _⟩ <;> rw [hi] <;> rfl
  obtain ⟨hbuff, hfilled, hclaimed, _⟩ := h.ledger.settled hout ha hb ht hw
  have hna := h.ledger.nonneg buffa a ha
  have hnb := h.ledger.nonneg buffb b hb
  have hnt := h.ledger.nonneg totald t ht
  -- a producer left waits for `buffa`, a consumer left for `buffb`
  have hproducer : ∀ i, Proc.isProducer (some i : Proc main) = true → st.pc (some i) = .reaped ∨
      (st.table a).count.toInt ≤ 0 := by
    intro i hi
    refine (hleft i).imp id fun hw => hw.2 a ?_
    simpa [Proc.waits, hi] using ha
  have hconsumer : ∀ i, Proc.isProducer (some i : Proc main) = false → st.pc (some i) = .reaped ∨
      (st.table b).count.toInt ≤ 0 := by
    intro i hi
    refine (hleft i).imp id fun hw => hw.2 b ?_
    simpa [Proc.waits, hi] using hb
  obtain ⟨c, hc⟩ : ∃ c, st.pc (some c) ≠ .reaped := by
    by_contra hall
    have hreaped : ∀ c, st.pc (some c) = .reaped := fun c => by_contra fun hc => hall ⟨c, hc⟩
    have hcount := h.control.reaped
    simp [hreaped, hp, waited, tally] at hcount
    omega
  have hmax : MAX_MSG = 3 := rfl
  cases hprod : Proc.isProducer (some c : Proc main) with
  | true =>
      -- the buffer is full of messages that no consumer will take
      have hfull := (hproducer c hprod).resolve_left hc
      have hgone : ∀ i, Proc.isProducer (some i : Proc main) = false →
          st.pc (some i) = .reaped := by
        intro i hi
        exact (hconsumer i hi).resolve_right (by omega)
      have hclaiming : total claiming st = 0 := by
        apply total_eq_zero
        intro q
        cases q with
        | none => simp [claiming, h.control.parent_outside]
        | some i =>
            cases hi : Proc.isProducer (some i : Proc main) with
            | true => simp [claiming, hi]
            | false => simp [claiming, hi, hgone i hi, Pc.inBody]
      obtain ⟨i, hi⟩ := exists_consumer hcons
      have hempty := h.emptied i hi (by rw [hgone i hi]; rfl) t ht
      have hle := h.rounds.le_total
      omega
  | false =>
      -- all messages have been produced, and more are claimed than are left
      have hempty := (hconsumer c hprod).resolve_left hc
      have hproduced : total (credit buffb) st = main.total := by
        apply h.rounds.eq_total
        intro q hq
        cases q with
        | none => cases hq
        | some i =>
            rw [(hproducer i hq).resolve_right (by omega)]
            rfl
      have hone : 1 ≤ total claiming st := by
        have hle := le_total claiming st (some c)
        have hbody := ((hleft c).resolve_left hc).1
        simpa [claiming, hprod, hbody, Pc.inBody] using hle
      omega

theorem Life.moves_or_done (h : Life st) (hcons : 1 ≤ main.consNum) : Moves st ∨ Done st := by
  by_cases hexited : st.pc none = .exited
  · right
    refine ⟨hexited, fun i => h.control.all_reaped ?_ i⟩
    rw [hexited]
    rfl
  left
  have hat := h.control.stands none
  cases hchan : st.chan none with
  | none =>
      apply moves_of_awake h.control hchan _ hexited
      · intro hp
        rw [hp] at hat
        exact hat
      · intro k hp
        rw [hp] at hat
        exact hat
  | some d =>
      have hdoze := h.sleepers.dozes none d hchan
      cases d with
      | sem s =>
          have hout := h.control.parent_outside
          obtain ⟨sd, ⟨hpc, _⟩ | ⟨hpc, _⟩, _⟩ := hdoze <;> simp [hpc, Pc.inBody] at hout
      | stable =>
          -- all children are gone, so nobody has the semaphore open
          exfalso
          obtain ⟨sd, s, hpc, hr⟩ := hdoze
          have hreaped := h.control.all_reaped (by rw [hpc]; rfl)
          obtain ⟨q, hq⟩ := h.holder_of_unlinking (by simp [hpc]) hpc hr
          cases q with
          | none => simp [hpc, holds] at hq
          | some i => simp [hreaped i, holds] at hq
      | proc r =>
          obtain ⟨_, _, ⟨n, hpc, hlt⟩, hnone⟩ := hdoze
          exact h.moves_of_waiting hcons hpc hlt hnone

/-- In every reachable state somebody can move unless all have exited; and when the producers
and consumers have left their loops, every message has been produced and consumed. The table
is one of the kernel, where no reference count is negative
(`Machine.ref_nonneg_of_reachable`). -/
theorem complete_of_reachable (main : Main) (table : STable) (hcons : 1 ≤ main.consNum)
    (htotal : main.total < 2 ^ 31) (href : ∀ s, 0 ≤ (table s).ref) (st : State main)
    (h : Reachable step Creates (start main table) st) :
    (Moves st ∨ Done st) ∧
      (AllGone st → st.written = main.prodNum * main.msgNumPerProd ∧
        st.taken = main.prodNum * main.msgNumPerProd ∧
        ∀ a b t w, st.opened buffa = some a → st.opened buffb = some b →
          st.opened totald = some t → st.opened write = some w →
          (st.table a).count.toInt = MAX_MSG ∧ (st.table b).count.toInt = 0 ∧
            (st.table t).count.toInt = 0 ∧ (st.table w).count.toInt = 1) := by
  have hl := life_of_reachable htotal href h
  refine ⟨hl.moves_or_done hcons, fun hgone => ?_⟩
  have hn : ∀ ds, st.pc none ≠ .semOpen ds := by
    obtain ⟨i, _⟩ := exists_consumer hcons
    intro ds hds
    have hmade := hl.control.made i
    rw [hds] at hmade
    have hi : st.pc (some i) = .embryo 0 := hmade
    have hg := hgone i
    rw [hi] at hg
    cases hg
  obtain ⟨a, ha⟩ := hl.descr.isOpen buffa fun ds hds => absurd hds (hn ds)
  obtain ⟨b, hb⟩ := hl.descr.isOpen buffb fun ds hds => absurd hds (hn ds)
  obtain ⟨t, ht⟩ := hl.descr.isOpen totald fun ds hds => absurd hds (hn ds)
  obtain ⟨w, hw⟩ := hl.descr.isOpen write fun ds hds => absurd hds (hn ds)
  obtain ⟨hwritten, htaken, _⟩ := hl.finished hcons hgone ha hb ht hw
  refine ⟨hwritten, htaken, fun a b t w ha hb ht hw => ?_⟩
  exact (hl.finished hcons hgone ha hb ht hw).2.2

/-- One producer and one consumer, from the first `sem_open` to the exit of the parent. -/
def wholeRun : List (Act ⟨1, 1, 1, 1⟩) :=
  List.replicate 20 (.run none) ++ List.replicate 3 (.run (some ⟨0, Nat.zero_lt_two⟩)) ++
    [.run (some ⟨1, Nat.one_lt_two⟩)] ++ List.replicate 14 (.run (some ⟨0, Nat.zero_lt_two⟩)) ++
    List.replicate 15 (.run (some ⟨1, Nat.one_lt_two⟩)) ++
    [.reap ⟨0, Nat.zero_lt_two⟩, .reap ⟨1, Nat.one_lt_two⟩] ++ List.replicate 19 (.run none)

theorem complete_of_reachable_wholeRun : ∃ st : State ⟨1, 1, 1, 1⟩, AllGone st ∧
    (Moves st ∨ Done st) ∧
      (AllGone st → st.written = 1 * 1 ∧ st.taken = 1 * 1 ∧
        ∀ a b t w, st.opened buffa = some a → st.opened buffb = some b →
          st.opened totald = some t → st.opened write = some w →
          (st.table a).count.toInt = MAX_MSG ∧ (st.table b).count.toInt = 0 ∧
            (st.table t).count.toInt = 0 ∧ (st.table w).count.toInt = 1) := by
  have hrun : (run step (start ⟨1, 1, 1, 1⟩ STable.zero) wholeRun).map
      (fun st => decide (∀ i, (st.pc (some i)).gone = true)) = some true := by decide +kernel
  obtain ⟨st, hst, hgone⟩ := Option.map_eq_some_iff.mp hrun
  have hreach := (tidy_of_reachable allFree_zero (reachable_of_run hst)).1
  exact ⟨st, by simpa [AllGone] using hgone, complete_of_reachable ⟨1, 1, 1, 1⟩ STable.zero
    (by decide) (by decide) (fun _ => le_rfl) st hreach⟩

end OsSolutions.ProdCons
