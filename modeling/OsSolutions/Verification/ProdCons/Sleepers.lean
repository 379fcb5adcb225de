import OsSolutions.Verification.ProdCons.Leaving

/-! # Who sleeps, and why

A process sleeps only while what it waits for has not happened: every section that makes it
happen also wakes the sleepers. -/

namespace OsSolutions.ProdCons

open Transition

variable {main : Main} {clean : Prop} {st st' : State main} {a : Act main} {p : Proc main}

/-- `p` is at a `sem_wait(sd)` of its loop. -/
def WaitsOn (st : State main) (p : Proc main) (sd : Fin NOSEM) : Prop :=
  (st.pc p = .body .waitBuff ∧ sd = p.waits) ∨ (st.pc p = .body .waitWrite ∧ sd = write)

/-- Why `p` may sleep on the channel. -/
def Dozes (st : State main) (p : Proc main) : Chan main → Prop
  | .sem s => ∃ sd, WaitsOn st p sd ∧ st.opened sd = some s ∧ (st.table s).count.toInt ≤ 0
  | .stable => ∃ sd s, st.pc p = .unlinkLoop sd s ∧ (st.table s).ref ≠ 0
  | .proc q => p = none ∧ q = none ∧ (∃ i, st.pc none = .wait i ∧ i < main.children) ∧
      ∀ c, st.pc (some c) ≠ .exited

structure Sleepers (st : State main) : Prop where
  dozes : ∀ p d, st.chan p = some d → Dozes st p d
  found : ∀ p sd s, st.pc p = .unlinking sd s ∨ st.pc p = .unlinkLoop sd s →
    (st.table s).matches (semName sd)
  dying : ∀ p sd s, st.pc p = .unlinkLoop sd s → (st.table s).waitingForDeath = true

/-- The awake process `p` moves to `c`, and nobody falls asleep. -/
theorem Sleepers.update (h : Sleepers st) {c : Pc} (hawake : st.chan p = none)
    (hpc : st'.pc = Function.update st.pc p c) (hopened : st'.opened = st.opened)
    (hchan : ∀ q d, st'.chan q = some d → st.chan q = some d)
    (hcount : ∀ q s, st'.chan q = some (.sem s) → (∃ sd, st.opened sd = some s) →
      (st.table s).count.toInt ≤ 0 → (st'.table s).count.toInt ≤ 0)
    (href : ∀ q s, st'.chan q = some .stable → (st.table s).waitingForDeath = true →
      (st.table s).ref ≠ 0 → (st'.table s).ref ≠ 0)
    (hexited : c = .exited → st'.chan none ≠ some (.proc none))
    (hbytes : ∀ s, (st'.table s).bytes = (st.table s).bytes)
    (hdying : ∀ s, (st.table s).waitingForDeath = true → (st'.table s).waitingForDeath = true)
    (hfound : ∀ sd s, c = .unlinking sd s ∨ c = .unlinkLoop sd s →
      (st.table s).matches (semName sd))
    (hloop : ∀ sd s, c = .unlinkLoop sd s → (st'.table s).waitingForDeath = true) :
    Sleepers st' := by
  have hself : st'.pc p = c := by simp [hpc]
  have hrest : ∀ {q}, q ≠ p → st'.pc q = st.pc q := by
    intro q hq
    simp [hpc, hq]
  have hmatch : ∀ {s sd}, (st.table s).matches (semName sd) →
      (st'.table s).matches (semName sd) := by
    intro s sd hm
    simpa only [Sem.matches, hbytes] using hm
  refine ⟨?_, ?_, ?_⟩
  · intro q d hd
    have hold := h.dozes q d (hchan q d hd)
    have hq : q ≠ p := by
      intro heq
      subst heq
      rw [hchan q d hd] at hawake
      cases hawake
    cases d with
    | sem s =>
        obtain ⟨sd, hwaits, hopen, hle⟩ := hold
        refine ⟨sd, ?_, hopened ▸ hopen, hcount q s hd ⟨sd, hopen⟩ hle⟩
        simpa only [WaitsOn, hrest hq] using hwaits
    | stable =>
        obtain ⟨sd, s, hpcq, hr⟩ := hold
        exact ⟨sd, s, (hrest hq).trans hpcq, href q s hd (h.dying q sd s hpcq) hr⟩
    | proc r =>
        obtain ⟨rfl, rfl, ⟨i, hwait, hi⟩, hnone⟩ := hold
        refine ⟨rfl, rfl, ⟨i, (hrest hq).trans hwait, hi⟩, ?_⟩
        intro j hj
        by_cases hjp : some j = p
        · subst hjp
          rw [hself] at hj
          exact hexited hj hd
        · rw [hrest hjp] at hj
          exact hnone j hj
  · intro q sd s hq
    by_cases hqp : q = p
    · subst hqp
      rw [hself] at hq
      exact hmatch (hfound sd s hq)
    · rw [hrest hqp] at hq
      exact hmatch (h.found q sd s hq)
  · intro q sd s hq
    by_cases hqp : q = p
    · subst hqp
      rw [hself] at hq
      exact hloop sd s hq
    · rw [hrest hqp] at hq
      exact hdying s (h.dying q sd s hq)

/-- A move that is no part of `sem_unlink` or the end of `exit`, and that wakes nobody up. -/
theorem Sleepers.move (h : Sleepers st) {c : Pc} (hawake : st.chan p = none)
    (hpc : st'.pc = Function.update st.pc p c) (hopened : st'.opened = st.opened)
    (hchan : st'.chan = st.chan) (htable : st'.table = st.table) (hexited : c ≠ .exited)
    (hfound : ∀ sd s, c = .unlinking sd s → (st.table s).matches (semName sd))
    (hloop : ∀ sd s, c ≠ .unlinkLoop sd s) : Sleepers st' := by
  refine h.update hawake hpc hopened ?_ ?_ ?_ (fun hc => absurd hc hexited) ?_ ?_ ?_
    fun sd s hc => absurd hc (hloop sd s)
  · intro q d hd
    rwa [hchan] at hd
  · intro q s _ _ hle
    rwa [htable]
  · intro q s _ _ hr
    rwa [htable]
  · intro s
    rw [htable]
  · intro s hs
    rwa [htable]
  · intro sd s hc
    rcases hc with hc | hc
    · exact hfound sd s hc
    · exact absurd hc (hloop sd s)

theorem Sleepers.sleep (h : Sleepers st) {d : Chan main} (hd : Dozes st p d) :
    Sleepers (st.sleep p d) where
  dozes q e he := by
    by_cases hq : q = p
    · subst hq
      obtain rfl : d = e := by simpa [State.sleep] using he
      exact hd
    · exact h.dozes q e (by simpa [State.sleep, hq] using he)
  found := h.found
  dying := h.dying

/-! ## Steps -/

theorem awake_of_reap {c : Fin main.children} (h : step st (.reap c) = some st') :
    st.chan none = none := by
  by_contra hp
  unfold step at h
  cases hpc : st.pc none with
  | wait i => simp [hpc, hp] at h
  | _ => simp [hpc] at h

theorem chan_of_wakeIf {wake : Bool} {e : Chan main} {q : Proc main} {d : Chan main}
    (h : (st.wakeIf wake e).chan q = some d) :
    st.chan q = some d ∧ (wake = true → d ≠ e) := by
  rw [State.wakeIf_chan] at h
  split at h
  · cases h
  · rename_i hnot
    refine ⟨h, ?_⟩
    rintro hwake rfl
    exact hnot ⟨hwake, h⟩

theorem Sleepers.moved (h : Sleepers st) (hawake : st.chan p = none) {c : Pc}
    (hm : Move st p c) : Sleepers (st.goto p c) := by
  have hgo : c ≠ .exited → (∀ sd s, c ≠ .unlinking sd s) → (∀ sd s, c ≠ .unlinkLoop sd s) →
      Sleepers (st.goto p c) :=
    fun hx hu hl => h.move hawake rfl rfl rfl rfl hx (fun sd s hc => absurd hc (hu sd s)) hl
  cases hm with
  | forkedAll => exact hgo (by simp) (by simp) (by simp)
  | @found sd s hp hscan =>
      refine h.move hawake rfl rfl rfl rfl (by simp) ?_ (by simp)
      intro x u hc
      cases hc
      rw [semUnlinkScan_eq] at hscan
      exact ((find?_finRange_eq_some _ s).mp hscan).1
  | notFound =>
      obtain ⟨hu, hl, hx⟩ := afterUnlink_cases p _
      exact hgo hx hu hl
  | produces => exact hgo (by simp) (by simp) (by simp)
  | produced => exact hgo (by simp) (by simp) (by simp)
  | emptied => exact hgo (by simp) (by simp) (by simp)
  | badWait ht =>
      obtain ⟨ph, rfl⟩ := takes_cases ht
      exact hgo (by simp) (by simp) (by simp)
  | childless => exact hgo (by simp) (by simp) (by simp)
  | waited => exact hgo (by simp) (by simp) (by simp)
  | notOpen hc =>
      obtain ⟨hu, hl, hx⟩ := closes_cases hc
      exact hgo hx hu hl

/-- A close wakes the sleepers of `stable` when the slot that is waited for has no reference
left. -/
theorem Sleepers.closes (h : Sleepers st) (hawake : st.chan p = none) {sd : Fin NOSEM} {next : Pc}
    {s : Fin NSEM} (hc : Closes st p sd next) :
    Sleepers ((((st.withTable (semClose st.table s).1).setOsem p sd none).wakeIf
      (semClose st.table s).2 .stable).goto p next) := by
  obtain ⟨hu, hl, hx⟩ := closes_cases hc
  refine h.update hawake rfl rfl ?_ ?_ ?_ (fun heq => absurd heq hx) ?_ ?_ ?_
    fun x u heq => absurd heq (hl x u)
  · exact fun q d hd => (chan_of_wakeIf hd).1
  · intro q u _ _ hle
    have hsame : ((semClose st.table s).1 u).count = (st.table u).count :=
      STable.modify_field Sem.count st.table s u rfl
    exact hsame ▸ hle
  · intro q u hq hflag hr
    have hwake := (chan_of_wakeIf hq).2
    show ((semClose st.table s).1 u).ref ≠ 0
    by_cases hus : u = s
    · subst hus
      intro hzero
      apply hwake _ rfl
      simp only [semClose, STable.modify_self] at hzero ⊢
      simpa [hzero] using hflag
    · simpa [semClose, STable.modify_of_ne _ _ hus] using hr
  · exact fun u => STable.modify_field Sem.bytes st.table s u rfl
  · intro u hflag
    have hsame : ((semClose st.table s).1 u).waitingForDeath = (st.table u).waitingForDeath :=
      STable.modify_field Sem.waitingForDeath st.table s u rfl
    exact hsame.trans hflag
  · intro x u heq
    rcases heq with heq | heq
    · exact absurd heq (hu x u)
    · exact absurd heq (hl x u)

/-- A post wakes the sleepers of a semaphore that had no unit. -/
theorem Sleepers.posts (h : Sleepers st) (hl : Ledger st) (hawake : st.chan p = none)
    {sd : Fin NOSEM} {next : Pc} {j : ℕ} {s : Fin NSEM} (ht : Posts st p sd next j) :
    Sleepers ((((st.setSem s { st.table s with count := (st.table s).count + 1 }).wakeIf
      ((st.table s).count + 1 = 1) (.sem s)).goto p next).setRounds p j) := by
  have hnext : (∀ x u, next ≠ .unlinking x u) ∧ (∀ x u, next ≠ .unlinkLoop x u) ∧
      next ≠ .exited := by
    rcases posts_cases ht with rfl | ⟨ph, rfl⟩ <;> simp
  obtain ⟨hunl, hloop, hx⟩ := hnext
  refine h.update hawake rfl rfl ?_ ?_ ?_ (fun heq => absurd heq hx) ?_ ?_ ?_
    fun x u heq => absurd heq (hloop x u)
  · exact fun q d hd => (chan_of_wakeIf hd).1
  · rintro q u hq ⟨x, hopen⟩ hle
    have hwake := (chan_of_wakeIf hq).2
    show (st.table.modify s _ u).count.toInt ≤ 0
    by_cases hus : u = s
    · subst hus
      have hzero : (st.table u).count = 0 := by
        apply Int32.toInt_inj.mp
        have hnonneg := hl.nonneg x u hopen
        have hz : (0 : Int32).toInt = 0 := rfl
        omega
      refine absurd rfl (hwake ?_)
      rw [hzero]
      decide
    · rwa [STable.modify_of_ne _ _ hus]
  · intro q u _ _ hr
    show (st.table.modify s _ u).ref ≠ 0
    rwa [STable.modify_field Sem.ref st.table s u rfl]
  · exact fun u => STable.modify_field Sem.bytes st.table s u rfl
  · intro u hflag
    show (st.table.modify s _ u).waitingForDeath = true
    rwa [STable.modify_field Sem.waitingForDeath st.table s u rfl]
  · intro x u heq
    rcases heq with heq | heq
    · exact absurd heq (hunl x u)
    · exact absurd heq (hloop x u)

/-- A pass of the loop of `sem_unlink` marks the slot and changes nothing that a sleeper
looks at. -/
theorem Sleepers.passes (h : Sleepers st) (hawake : st.chan p = none) {sd : Fin NOSEM}
    {s : Fin NSEM} {t : STable} {c : Pc} (hp : Passes st p sd s t)
    (hunl : ∀ x v, c = .unlinking x v → False) (hloop : ∀ x v, c = .unlinkLoop x v → x = sd ∧ v = s)
    (hx : c ≠ .exited) (hpc : st'.pc = Function.update st.pc p c)
    (hopened : st'.opened = st.opened) (hchan : st'.chan = st.chan)
    (hcount : ∀ v, (st'.table v).count = (t v).count) (href : ∀ v, (st'.table v).ref = (t v).ref)
    (hbytes : ∀ v, (st'.table v).bytes = (t v).bytes)
    (hflag : ∀ v, (st'.table v).waitingForDeath = (t v).waitingForDeath) : Sleepers st' := by
  have hmarked : (t s).waitingForDeath = true ∧
      ∀ v, (st.table v).waitingForDeath = true → (t v).waitingForDeath = true := by
    rcases hp with ⟨_, rfl⟩ | ⟨hp, rfl⟩
    · refine ⟨by simp [semUnlinkMark], fun v hv => ?_⟩
      rw [semUnlinkMark, STable.modify_apply]
      split
      · rfl
      · exact hv
    · exact ⟨h.dying p sd s hp, fun v hv => hv⟩
  have hmatch : (st.table s).matches (semName sd) := by
    apply h.found p sd s
    exact hp.imp (fun hu => hu.1) fun hl => hl.1
  refine h.update hawake hpc hopened ?_ ?_ ?_ (fun heq => absurd heq hx) ?_ ?_ ?_ ?_
  · intro q d hq
    rwa [hchan] at hq
  · intro q v _ _ hle
    rwa [hcount, (hp.units v).1]
  · intro q v _ _ hr
    rwa [href, (hp.fields v).2.1]
  · intro v
    rw [hbytes, (hp.fields v).1]
  · intro v hv
    rw [hflag]
    exact hmarked.2 v hv
  · intro x v heq
    rcases heq with heq | heq
    · exact (hunl x v heq).elim
    · obtain ⟨rfl, rfl⟩ := hloop x v heq
      exact hmatch
  · intro x v heq
    obtain ⟨rfl, rfl⟩ := hloop x v heq
    rw [hflag]
    exact hmarked.1

/-- Everywhere else a process is awake. -/
theorem Sleepers.awake (h : Sleepers st) (hbuff : st.pc p ≠ .body .waitBuff)
    (hwrite : st.pc p ≠ .body .waitWrite) (hloop : ∀ sd s, st.pc p ≠ .unlinkLoop sd s)
    (hwait : ∀ i, st.pc p ≠ .wait i) : st.chan p = none := by
  cases hchan : st.chan p with
  | none => rfl
  | some d =>
      exfalso
      have hold := h.dozes p d hchan
      cases d with
      | sem s =>
          obtain ⟨sd, ⟨hp, _⟩ | ⟨hp, _⟩, _⟩ := hold
          · exact hbuff hp
          · exact hwrite hp
      | stable =>
          obtain ⟨sd, s, hp, _⟩ := hold
          exact hloop sd s hp
      | proc r =>
          obtain ⟨rfl, _, ⟨i, hp, _⟩, _⟩ := hold
          exact hwait i hp

theorem Sleepers.embryo_awake (h : Sleepers st) {i : Fin main.children} {k : ℕ}
    (hi : st.pc (some i) = .embryo k) : st.chan (some i) = none :=
  h.awake (by simp [hi]) (by simp [hi]) (by simp [hi]) (by simp [hi])

/-- `fork` only adds references. -/
theorem Sleepers.copies (h : Sleepers st) (hd : Descr True st) {i : Fin main.children}
    {k : Fin NOSEM} {s : Fin NSEM} (hi : st.pc (some i) = .embryo k.val) :
    Sleepers (((st.withTable (semdup st.table s)).setOsem (some i) k (some s)).goto (some i)
      (.embryo (k.val + 1))) := by
  refine h.update (h.embryo_awake hi) rfl rfl (fun q d hq => hq) ?_ ?_ (by simp) ?_ ?_ (by simp)
    (by simp)
  · intro q u _ _ hle
    have hsame : (semdup st.table s u).count = (st.table u).count :=
      STable.modify_field Sem.count st.table s u rfl
    exact hsame ▸ hle
  · intro q u _ _ hr
    show (semdup st.table s u).ref ≠ 0
    have hnonneg := hd.nonneg trivial u
    rw [semdup_ref]
    split <;> omega
  · exact fun u => STable.modify_field Sem.bytes st.table s u rfl
  · intro u hflag
    have hsame : (semdup st.table s u).waitingForDeath = (st.table u).waitingForDeath :=
      STable.modify_field Sem.waitingForDeath st.table s u rfl
    exact hsame.trans hflag

/-- A unit that is taken leaves the count of the semaphore lower. -/
theorem Sleepers.takes (h : Sleepers st) (hawake : st.chan p = none) {sd : Fin NOSEM} {next : Pc}
    {s : Fin NSEM} (ht : Takes st p sd next) (hpos : 0 < (st.table s).count) :
    Sleepers ((st.setSem s { st.table s with count := (st.table s).count - 1 }).goto p next) := by
  obtain ⟨ph, rfl⟩ := takes_cases ht
  refine h.update hawake rfl rfl (fun q d hq => hq) ?_ ?_ (by simp) ?_ ?_ (by simp) (by simp)
  · intro q u _ _ hle
    show (st.table.modify s _ u).count.toInt ≤ 0
    by_cases hus : u = s
    · subst hus
      rw [STable.modify_self]
      show ((st.table u).count - 1).toInt ≤ 0
      rw [Slot.toInt_pred hpos]
      omega
    · rwa [STable.modify_of_ne _ _ hus]
  · intro q u _ _ hr
    show (st.table.modify s _ u).ref ≠ 0
    rwa [STable.modify_field Sem.ref st.table s u rfl]
  · exact fun u => STable.modify_field Sem.bytes st.table s u rfl
  · intro u hflag
    show (st.table.modify s _ u).waitingForDeath = true
    rwa [STable.modify_field Sem.waitingForDeath st.table s u rfl]

/-- During the opens nobody sleeps and nobody unlinks. -/
theorem Sleepers.opens (h : Sleepers st) (hc : Control st.pc) {sd : Fin NOSEM}
    (hp : st.pc none = .semOpen sd) : Sleepers (st.semOpen none sd) := by
  have hnot : ∀ {q : Proc main} {c : Pc}, (∀ x, c ≠ .semOpen x) → (∀ k, c ≠ .embryo k) →
      st.pc q ≠ c := by
    intro q c hopen hborn hq
    cases q with
    | none => exact hopen sd (hq.symm.trans hp)
    | some i =>
        have hmade := hc.made i
        rw [hp] at hmade
        exact hborn 0 (hq.symm.trans hmade)
  have hpc : (st.semOpen none sd).pc = Function.update st.pc none (Proc.afterOpen sd) := rfl
  have hnext : ∀ {q : Proc main} {c : Pc}, (∀ x, c ≠ .semOpen x) → (∀ k, c ≠ .embryo k) →
      (∀ k, c ≠ .fork k) → (st.semOpen none sd).pc q ≠ c := by
    intro q c hopen hborn hfork hq
    rw [hpc] at hq
    cases q with
    | none =>
        rw [Function.update_self] at hq
        unfold Proc.afterOpen at hq
        split at hq
        · exact hopen _ hq.symm
        · exact hfork 0 hq.symm
    | some i => exact hnot hopen hborn hq
  refine ⟨?_, ?_, ?_⟩
  · intro q d hd
    exfalso
    have hold := h.dozes q d hd
    cases d with
    | sem s =>
        obtain ⟨x, ⟨hq, _⟩ | ⟨hq, _⟩, _⟩ := hold <;> exact hnot (by simp) (by simp) hq
    | stable =>
        obtain ⟨x, s, hq, _⟩ := hold
        exact hnot (by simp) (by simp) hq
    | proc r =>
        obtain ⟨_, _, ⟨i, hq, _⟩, _⟩ := hold
        exact hnot (by simp) (by simp) hq
  · intro q x s hq
    rcases hq with hq | hq <;> exact absurd hq (hnext (by simp) (by simp) (by simp))
  · intro q x s hq
    exact absurd hq (hnext (by simp) (by simp) (by simp))

theorem step_sleepers (h : Sleepers st) (hd : Descr True st) (hc : Control st.pc) (hl : Ledger st)
    (hstep : step st a = some st') : Sleepers st' := by
  have hs := step_cases hstep
  rcases opening_or_later hc hs with ⟨sd, rfl, hp, rfl⟩ | hn
  · exact h.opens hc hp
  cases hs with
  | moved hm => exact h.moved (awake_of_step hstep) hm
  | @opened p sd hp =>
      obtain rfl := only_parent_opens hc hp
      exact absurd hp (hn sd)
  | copied hp hi => exact h.copies hd hi
  | copiedNone hp hi =>
      exact h.move (h.embryo_awake hi) rfl rfl rfl rfl (by simp) (by simp) (by simp)
  | @forked p i k hp hi hk =>
      have hmade : Sleepers (st.goto (some i) (.semClose waitcd)) :=
        h.move (h.embryo_awake hi) rfl rfl rfl rfl (by simp) (by simp) (by simp)
      have hparent : st.chan p = none := awake_of_step hstep
      exact hmade.move hparent rfl rfl rfl rfl (by simp) (by simp) (by simp)
  | closed hcl => exact h.closes (awake_of_step hstep) hcl
  | @unlinked p sd s t hp hr =>
      obtain ⟨hu, hl, hx⟩ := afterUnlink_cases p sd
      exact h.passes (awake_of_step hstep) hp (fun x v heq => absurd heq (hu x v))
        (fun x v heq => absurd heq (hl x v)) hx rfl rfl rfl
        (fun v => STable.modify_field Sem.count t s v rfl)
        (fun v => STable.modify_field Sem.ref t s v rfl)
        (fun v => STable.modify_field Sem.bytes t s v rfl)
        fun v => STable.modify_field Sem.waitingForDeath t s v rfl
  | @unlinkSleeps p sd s t hp hr =>
      have hloop : Sleepers ((st.withTable t).goto p (.unlinkLoop sd s)) := by
        refine h.passes (awake_of_step hstep) hp (by simp) ?_ (by simp) rfl rfl rfl (fun _ => rfl)
          (fun _ => rfl) (fun _ => rfl) fun _ => rfl
        intro x v heq
        cases heq
        exact ⟨rfl, rfl⟩
      exact hloop.sleep ⟨sd, s, State.goto_pc_self p _, hr⟩
  | took ht hs hpos => exact h.takes (awake_of_step hstep) ht hpos
  | @waitSleeps p sd next s ht hloop hs hc' =>
      apply h.sleep
      obtain ⟨hopen, _⟩ := hd.opened_of_osem hs
      rw [Int32.lt_iff_toInt_lt] at hc'
      have hzero : (0 : Int32).toInt = 0 := rfl
      refine ⟨sd, ?_, hopen, by omega⟩
      rcases ht with ⟨hp, _⟩ | ⟨hp, rfl, _⟩ | ⟨hp, rfl, _⟩
      · exact absurd hp hloop
      · exact .inl ⟨hp, rfl⟩
      · exact .inr ⟨hp, rfl⟩
  | messaged hp =>
      unfold State.message
      split <;>
        exact h.move (awake_of_step hstep) rfl rfl rfl rfl (by simp) (by simp) (by simp)
  | posted ht hs hne => exact h.posts hl (awake_of_step hstep) ht
  | postRefused ht =>
      rcases posts_cases ht with rfl | ⟨ph, rfl⟩ <;>
        exact h.move (awake_of_step hstep) rfl rfl rfl rfl (by simp) (by simp) (by simp)
  | @childrenLeft p i hp hi hnone hleft =>
      have hat := hc.stands p
      rw [hp] at hat
      cases p with
      | some j => exact absurd hat id
      | none => exact h.sleep ⟨rfl, rfl, ⟨i, hp, hi⟩, hnone⟩
  | @exited p k hp hk =>
      refine h.update (awake_of_step hstep) rfl rfl (fun q d hq => (chan_of_wakeIf hq).1)
        (fun q u _ _ hle => hle) (fun q u _ _ hr => hr) ?_ (fun _ => rfl) (fun u hflag => hflag)
        (by simp) (by simp)
      intro _ hq
      exact (chan_of_wakeIf hq).2 rfl rfl
  | @reaped c i hp hi hexit =>
      have hawake := h.awake (p := some c) (by simp [hexit]) (by simp [hexit]) (by simp [hexit])
        (by simp [hexit])
      have hreap : Sleepers (st.goto (some c) .reaped) :=
        h.move hawake rfl rfl rfl rfl (by simp) (by simp) (by simp)
      have hparent : st.chan none = none := awake_of_reap hstep
      exact hreap.move hparent rfl rfl rfl rfl (by simp) (by simp) (by simp)

theorem sleepers_start (main : Main) (table : STable) : Sleepers (start main table) where
  dozes p d h := by cases h
  found p sd s h := by cases p <;> rcases h with h | h <;> cases h
  dying p sd s h := by cases p <;> cases h

end OsSolutions.ProdCons
