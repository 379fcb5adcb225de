import OsSolutions.Model.ProdConsMachine
import OsSolutions.Transition.Run
import OsSolutions.Verification.Sem.Sections

/-! # The steps of the processes of `pc.c`, branch by branch -/

namespace OsSolutions.ProdCons

variable {main : Main} {st : State main}

/-! ## Fields after a write -/

namespace State

@[simp] theorem goto_pc_self (p : Proc main) (c : Pc) : (st.goto p c).pc p = c := by
  simp [goto]

theorem goto_pc_of_ne {p q : Proc main} (c : Pc) (h : q ≠ p) : (st.goto p c).pc q = st.pc q := by
  simp [goto, h]

theorem goto_pc_apply (p q : Proc main) (c : Pc) :
    (st.goto p c).pc q = if q = p then c else st.pc q := by
  simp [goto, Function.update_apply]

theorem setOsem_apply (p q : Proc main) (sd sd' : Fin NOSEM) (v : Option (Fin NSEM)) :
    (st.setOsem p sd v).osem q sd' = if q = p ∧ sd' = sd then v else st.osem q sd' := by
  by_cases hq : q = p
  · subst hq
    by_cases hsd : sd' = sd <;> simp [setOsem, hsd]
  · simp [setOsem, hq]

@[simp] theorem setSem_same (s : Fin NSEM) : st.setSem s (st.table s) = st := by
  simp [setSem, withTable, STable.modify]

@[simp] theorem wakeIf_false (c : Chan main) : st.wakeIf false c = st := by
  simp [wakeIf]

/-- A sleeper on the channel that is woken sleeps no more; everybody else goes on. -/
theorem wakeIf_chan (wake : Bool) (c : Chan main) (p : Proc main) :
    (st.wakeIf wake c).chan p = if wake = true ∧ st.chan p = some c then none else st.chan p :=
  rfl

end State

/-! ## Inversion -/

/-- `p` is about to take a unit of `sd`, and goes to `next` with it. -/
def Takes (st : State main) (p : Proc main) (sd : Fin NOSEM) (next : Pc) : Prop :=
  (st.pc p = .loop ∧ p.isProducer = false ∧ sd = totald ∧ next = .body .waitBuff) ∨
  (st.pc p = .body .waitBuff ∧ sd = p.waits ∧ next = .body .waitWrite) ∨
  (st.pc p = .body .waitWrite ∧ sd = write ∧ next = .body .message)

/-- `p` is about to post on `sd`, and goes to `next` with the loop variable `j`. -/
def Posts (st : State main) (p : Proc main) (sd : Fin NOSEM) (next : Pc) (j : ℕ) : Prop :=
  (st.pc p = .body .postWrite ∧ sd = write ∧ next = .body .postBuff ∧ j = st.rounds p) ∨
  (st.pc p = .body .postBuff ∧ sd = p.posts ∧ next = .loop ∧ j = st.rounds p + 1)

/-- `p` is about to close `sd`, in `sem_close` or in `exit`. -/
def Closes (st : State main) (p : Proc main) (sd : Fin NOSEM) (next : Pc) : Prop :=
  (st.pc p = .semClose sd ∧ next = p.afterClose sd) ∨
  (st.pc p = .exit sd.val ∧ next = .exit (sd.val + 1))

/-- `p` takes a pass of the loop of `sem_unlink` on `found`, in the table `t`. -/
def Passes (st : State main) (p : Proc main) (sd : Fin NOSEM) (found : Fin NSEM) (t : STable) :
    Prop :=
  (st.pc p = .unlinking sd found ∧ t = semUnlinkMark st.table found) ∨
  (st.pc p = .unlinkLoop sd found ∧ t = st.table)

/-- The steps that change nothing but where `p` stands. -/
inductive Move (st : State main) (p : Proc main) : Pc → Prop
  | forkedAll {i} : st.pc p = .fork i → ¬ i < main.children → Move st p (.semClose waitcd)
  | found {sd s} : st.pc p = .semUnlink sd →
      semUnlinkScan st.table (semName sd) (List.finRange NSEM) none = some s →
      Move st p (.unlinking sd s)
  | notFound {sd} : st.pc p = .semUnlink sd →
      semUnlinkScan st.table (semName sd) (List.finRange NSEM) none = none →
      Move st p (p.afterUnlink sd)
  | produces : st.pc p = .loop → p.isProducer = true → st.rounds p < main.msgNumPerProd →
      Move st p (.body .waitBuff)
  | produced : st.pc p = .loop → p.isProducer = true → ¬ st.rounds p < main.msgNumPerProd →
      Move st p (.exit 0)
  | emptied : st.pc p = .loop → p.isProducer = false →
      (∀ s, st.osem p totald = some s → ¬ 0 < (st.table s).count) → Move st p (.exit 0)
  | badWait {sd next} : Takes st p sd next → st.pc p ≠ .loop → st.osem p sd = none →
      Move st p next
  | childless {i} : st.pc p = .wait i → i < main.children → (∀ c, st.pc (some c) = .reaped) →
      Move st p (.wait (i + 1))
  | waited {i} : st.pc p = .wait i → ¬ i < main.children → Move st p (.semClose buffa)
  | notOpen {sd next} : Closes st p sd next → st.osem p sd = none → Move st p next

/-- One rule for each way through a section. -/
inductive Step (st : State main) : Act main → State main → Prop
  | moved {p next} : Move st p next → Step st (.run p) (st.goto p next)
  | opened {p sd} : st.pc p = .semOpen sd → Step st (.run p) (st.semOpen p sd)
  | copied {p i s} {k : Fin NOSEM} : st.pc p = .fork i.val → st.pc (some i) = .embryo k.val →
      st.osem p k = some s →
      Step st (.run p) (((st.withTable (semdup st.table s)).setOsem (some i) k (some s)).goto
        (some i) (.embryo (k.val + 1)))
  | copiedNone {p i} {k : Fin NOSEM} : st.pc p = .fork i.val → st.pc (some i) = .embryo k.val →
      st.osem p k = none → Step st (.run p) (st.goto (some i) (.embryo (k.val + 1)))
  | forked {p i k} : st.pc p = .fork i.val → st.pc (some i) = .embryo k → ¬ k < NOSEM →
      Step st (.run p) ((st.goto (some i) (.semClose waitcd)).goto p (.fork (i.val + 1)))
  | closed {p sd next s} : Closes st p sd next → st.osem p sd = some s →
      Step st (.run p) ((((st.withTable (semClose st.table s).1).setOsem p sd none).wakeIf
        (semClose st.table s).2 .stable).goto p next)
  | unlinked {p sd s t} : Passes st p sd s t → (t s).ref = 0 →
      Step st (.run p) ((st.withTable (t.modify s fun x => { x with linked := false })).goto p
        (p.afterUnlink sd))
  | unlinkSleeps {p sd s t} : Passes st p sd s t → (t s).ref ≠ 0 →
      Step st (.run p) (((st.withTable t).goto p (.unlinkLoop sd s)).sleep p .stable)
  | took {p sd next s} : Takes st p sd next → st.osem p sd = some s → 0 < (st.table s).count →
      Step st (.run p) ((st.setSem s { st.table s with count := (st.table s).count - 1 }).goto p
        next)
  | waitSleeps {p sd next s} : Takes st p sd next → st.pc p ≠ .loop → st.osem p sd = some s →
      ¬ 0 < (st.table s).count → Step st (.run p) (st.sleep p (.sem s))
  | messaged {p} : st.pc p = .body .message →
      Step st (.run p) ((st.message p).goto p (.body .postWrite))
  | posted {p sd next j s} : Posts st p sd next j → st.osem p sd = some s →
      (st.table s).count ≠ (st.table s).maxVal →
      Step st (.run p) ((((st.setSem s { st.table s with
        count := (st.table s).count + 1 }).wakeIf ((st.table s).count + 1 = 1) (.sem s)).goto p
          next).setRounds p j)
  | postRefused {p sd next j} : Posts st p sd next j →
      (∀ s, st.osem p sd = some s → (st.table s).count = (st.table s).maxVal) →
      Step st (.run p) ((st.goto p next).setRounds p j)
  | childrenLeft {p i} : st.pc p = .wait i → i < main.children →
      (∀ c, st.pc (some c) ≠ .exited) → (∃ c, st.pc (some c) ≠ .reaped) →
      Step st (.run p) (st.sleep p (.proc p))
  | exited {p k} : st.pc p = .exit k → ¬ k < NOSEM →
      Step st (.run p) ((st.wakeIf true (.proc none)).goto p .exited)
  | reaped {c i} : st.pc none = .wait i → i < main.children → st.pc (some c) = .exited →
      Step st (.reap c) ((st.goto (some c) .reaped).goto none (.wait (i + 1)))

variable {st' : State main} {a : Act main} {p : Proc main}

theorem semWait_step {sd : Fin NOSEM} {next : Pc} (h : Takes st p sd next)
    (hloop : st.pc p ≠ .loop) : Step st (.run p) (st.semWait p sd next) := by
  unfold State.semWait
  split
  · rename_i s hs
    by_cases hc : 0 < (st.table s).count
    · simpa [semWaitPass, hc] using Step.took h hs hc
    · simpa [semWaitPass, hc] using Step.waitSleeps h hloop hs hc
  · rename_i hs
    exact .moved (.badWait h hloop hs)

theorem semPost_step {sd : Fin NOSEM} {next : Pc} {j : ℕ} (h : Posts st p sd next j) :
    Step st (.run p) (st.semPost p sd next j) := by
  unfold State.semPost
  split
  · rename_i s hs
    by_cases hc : (st.table s).count = (st.table s).maxVal
    · have hfull : ∀ u, st.osem p sd = some u → (st.table u).count = (st.table u).maxVal := by
        intro u hu
        obtain rfl : s = u := Option.some.inj (hs.symm.trans hu)
        exact hc
      simpa [semPost, hc] using Step.postRefused h hfull
    · simpa [semPost, hc] using Step.posted h hs hc
  · rename_i hs
    exact .postRefused h (by simp [hs])

theorem semClose_step {sd : Fin NOSEM} {next : Pc} (h : Closes st p sd next) :
    Step st (.run p) (st.semClose p sd next) := by
  unfold State.semClose
  split
  · rename_i s hs
    exact .closed h hs
  · rename_i hs
    exact .moved (.notOpen h hs)

theorem unlinkPass_step {sd : Fin NOSEM} {s : Fin NSEM} {t : STable} (h : Passes st p sd s t) :
    Step st (.run p) ((st.withTable t).unlinkPass p sd s) := by
  unfold State.unlinkPass semUnlinkPass
  by_cases hr : (t s).ref = 0
  · simpa [State.withTable, hr] using Step.unlinked h hr
  · simpa [State.withTable, hr] using Step.unlinkSleeps h hr

theorem fork_step {i : Fin main.children} {k : ℕ} (hp : st.pc p = .fork i.val)
    (hi : st.pc (some i) = .embryo k) : Step st (.run p) (st.fork p i k) := by
  unfold State.fork
  by_cases hk : k < NOSEM
  · rw [dif_pos hk]
    split
    · rename_i s hs
      exact .copied (k := ⟨k, hk⟩) hp hi hs
    · rename_i hs
      exact .copiedNone (k := ⟨k, hk⟩) hp hi hs
  · rw [dif_neg hk]
    exact .forked hp hi hk

theorem loop_step (hp : st.pc p = .loop) : Step st (.run p) (st.loop p) := by
  unfold State.loop
  cases hprod : p.isProducer with
  | true =>
      by_cases hj : st.rounds p < main.msgNumPerProd
      · simpa [hj] using Step.moved (.produces hp hprod hj)
      · simpa [hj] using Step.moved (.produced hp hprod hj)
  | false =>
      have htakes : Takes st p totald (.body .waitBuff) := .inl ⟨hp, hprod, rfl, rfl⟩
      cases hs : st.osem p totald with
      | some s =>
          by_cases hc : 0 < (st.table s).count
          · simpa [hs, semTryWait, hc] using Step.took htakes hs hc
          · simpa [hs, semTryWait, hc] using Step.moved (.emptied hp hprod (by simpa [hs] using hc))
      | none => simpa [hs] using Step.moved (.emptied hp hprod (by simp [hs]))

theorem exec_step (h : exec st p = some st') : Step st (.run p) st' := by
  unfold exec at h
  cases hp : st.pc p with
  | semOpen sd => exact (by simpa [hp] using h : st.semOpen p sd = st') ▸ .opened hp
  | fork i =>
      by_cases hi : i < main.children
      · cases hc : st.pc (some ⟨i, hi⟩) with
        | embryo k =>
            obtain rfl : st.fork p ⟨i, hi⟩ k = st' := by simpa [hp, hi, hc] using h
            exact fork_step hp hc
        | _ => simp [hp, hi, hc] at h
      · obtain rfl : st.goto p (.semClose waitcd) = st' := by simpa [hp, hi] using h
        exact .moved (.forkedAll hp hi)
  | embryo k => simp [hp] at h
  | semClose sd =>
      obtain rfl : st.semClose p sd (p.afterClose sd) = st' := by simpa [hp] using h
      exact semClose_step (.inl ⟨hp, rfl⟩)
  | semUnlink sd =>
      cases hscan : semUnlinkScan st.table (semName sd) (List.finRange NSEM) none with
      | some s =>
          obtain rfl : st.goto p (.unlinking sd s) = st' := by simpa [hp, hscan] using h
          exact .moved (.found hp hscan)
      | none =>
          obtain rfl : st.goto p (p.afterUnlink sd) = st' := by simpa [hp, hscan] using h
          exact .moved (.notFound hp hscan)
  | unlinking sd s =>
      obtain rfl : (st.withTable (semUnlinkMark st.table s)).unlinkPass p sd s = st' := by
        simpa [hp] using h
      exact unlinkPass_step (.inl ⟨hp, rfl⟩)
  | unlinkLoop sd s =>
      obtain rfl : st.unlinkPass p sd s = st' := by simpa [hp] using h
      exact unlinkPass_step (.inr ⟨hp, rfl⟩)
  | loop =>
      obtain rfl : st.loop p = st' := by simpa [hp] using h
      exact loop_step hp
  | body ph =>
      obtain rfl : st.body p ph = st' := by simpa [hp] using h
      cases ph with
      | waitBuff => exact semWait_step (.inr (.inl ⟨hp, rfl, rfl⟩)) (by simp [hp])
      | waitWrite => exact semWait_step (.inr (.inr ⟨hp, rfl, rfl⟩)) (by simp [hp])
      | message => exact .messaged hp
      | postWrite => exact semPost_step (.inl ⟨hp, rfl, rfl, rfl⟩)
      | postBuff => exact semPost_step (.inr ⟨hp, rfl, rfl, rfl⟩)
  | wait i =>
      by_cases hi : i < main.children
      · by_cases hz : ∃ c, st.pc (some c) = .exited
        · simp [hp, hi, hz] at h
        · obtain rfl : st.waitNoZombie p i = st' := by simpa [hp, hi, hz] using h
          unfold State.waitNoZombie
          by_cases hr : ∀ c, st.pc (some c) = .reaped
          · rw [if_pos hr]
            exact .moved (.childless hp hi hr)
          · rw [if_neg hr]
            exact .childrenLeft hp hi (by simpa using hz) (by simpa using hr)
      · obtain rfl : st.goto p (.semClose buffa) = st' := by simpa [hp, hi] using h
        exact .moved (.waited hp hi)
  | exit k =>
      obtain rfl : st.exit p k = st' := by simpa [hp] using h
      unfold State.exit
      by_cases hk : k < NOSEM
      · rw [dif_pos hk]
        exact semClose_step (.inr ⟨hp, rfl⟩)
      · rw [dif_neg hk]
        exact .exited hp hk
  | exited => simp [hp] at h
  | reaped => simp [hp] at h

/-- Everything a step can do. -/
theorem step_cases (h : step st a = some st') : Step st a st' := by
  cases a with
  | run p =>
      by_cases hp : st.chan p = none
      · exact exec_step (by simpa [step, hp] using h)
      · simp [step, hp] at h
  | reap c =>
      cases hp : st.pc none with
      | wait i =>
          by_cases hc : i < main.children ∧ st.chan none = none ∧ st.pc (some c) = .exited
          · obtain rfl : (st.goto (some c) .reaped).goto none (.wait (i + 1)) = st' := by
              simpa [step, hp, hc] using h
            exact .reaped hp hc.1 hc.2.2
          · simp [step, hp, hc] at h
      | _ => simp [step, hp] at h

/-- Only a process that is awake runs. -/
theorem awake_of_step (h : step st (.run p) = some st') : st.chan p = none := by
  by_contra hp
  simp [step, hp] at h

/-! ## Where one process goes -/

/-- The control points that a step to `st'` can take `q` to. -/
inductive Goes (st st' : State main) (q : Proc main) : Pc → Prop
  | opened {sd} : st.pc q = .semOpen sd → Goes st st' q (Proc.afterOpen sd)
  | forked {i} : st.pc q = .fork i → Goes st st' q (.fork (i + 1))
  | forkedAll {i} : st.pc q = .fork i → Goes st st' q (.semClose waitcd)
  | copied {k} : st.pc q = .embryo k → Goes st st' q (.embryo (k + 1))
  | born {k} : st.pc q = .embryo k → Goes st st' q (.semClose waitcd)
  | closes {sd next} : Closes st q sd next → Goes st st' q next
  | found {sd s} : st.pc q = .semUnlink sd →
      semUnlinkScan st.table (semName sd) (List.finRange NSEM) none = some s →
      Goes st st' q (.unlinking sd s)
  | notFound {sd} : st.pc q = .semUnlink sd →
      semUnlinkScan st.table (semName sd) (List.finRange NSEM) none = none →
      Goes st st' q (q.afterUnlink sd)
  | unlinked {sd s t} : Passes st q sd s t → (t s).ref = 0 → (st'.table s).linked = false →
      Goes st st' q (q.afterUnlink sd)
  | unlinkSleeps {sd s t} : Passes st q sd s t → Goes st st' q (.unlinkLoop sd s)
  | body {ph} : st.pc q = .loop ∨ (∃ ph, st.pc q = .body ph) → Goes st st' q (.body ph)
  | looped {ph} : st.pc q = .body ph → Goes st st' q .loop
  | produced : st.pc q = .loop → q.isProducer = true → Goes st st' q (.exit 0)
  | emptied : st.pc q = .loop → q.isProducer = false →
      (∀ s, st.osem q totald = some s → ¬ 0 < (st.table s).count) → Goes st st' q (.exit 0)
  | waits {i} : st.pc q = .wait i → Goes st st' q (.wait (i + 1))
  | waited {i} : st.pc q = .wait i → Goes st st' q (.semClose buffa)
  | exited {k} : st.pc q = .exit k → Goes st st' q .exited
  | reaped : st.pc q = .exited → Goes st st' q .reaped

theorem Takes.goes {sd : Fin NOSEM} {next : Pc} (h : Takes st p sd next) : Goes st st' p next := by
  rcases h with ⟨hp, _, _, rfl⟩ | ⟨hp, _, rfl⟩ | ⟨hp, _, rfl⟩
  · exact .body (.inl hp)
  · exact .body (.inr ⟨_, hp⟩)
  · exact .body (.inr ⟨_, hp⟩)

theorem Posts.goes {sd : Fin NOSEM} {next : Pc} {j : ℕ} (h : Posts st p sd next j) :
    Goes st st' p next := by
  rcases h with ⟨hp, _, rfl, _⟩ | ⟨hp, _, rfl, _⟩
  · exact .body (.inr ⟨_, hp⟩)
  · exact .looped hp

theorem Move.goes {c : Pc} (h : Move st p c) : Goes st st' p c := by
  cases h with
  | forkedAll hp => exact .forkedAll hp
  | found hp hscan => exact .found hp hscan
  | notFound hp hscan => exact .notFound hp hscan
  | produces hp => exact .body (.inl hp)
  | produced hp hprod => exact .produced hp hprod
  | emptied hp hprod hempty => exact .emptied hp hprod hempty
  | badWait ht => exact ht.goes
  | childless hp => exact .waits hp
  | waited hp => exact .waited hp
  | notOpen hcl => exact .closes hcl

theorem Step.goes (hs : Step st a st') (q : Proc main) :
    st'.pc q = st.pc q ∨ Goes st st' q (st'.pc q) := by
  have hmove : ∀ {p : Proc main} {c : Pc}, st'.pc = Function.update st.pc p c →
      Goes st st' p c → st'.pc q = st.pc q ∨ Goes st st' q (st'.pc q) := by
    intro p c hpc hgo
    rw [hpc]
    by_cases hqp : q = p
    · subst hqp
      rw [Function.update_self]
      exact .inr hgo
    · exact .inl (Function.update_of_ne hqp c st.pc)
  cases hs with
  | moved hm => exact hmove rfl hm.goes
  | @opened p sd hp => exact hmove (p := p) (c := Proc.afterOpen sd) rfl (.opened hp)
  | copied hp hi => exact hmove rfl (.copied hi)
  | copiedNone hp hi => exact hmove rfl (.copied hi)
  | @forked p i k hp hi hk =>
      by_cases hqp : q = p
      · subst hqp
        rw [State.goto_pc_self]
        exact .inr (.forked hp)
      · rw [State.goto_pc_of_ne _ hqp]
        by_cases hqi : q = some i
        · subst hqi
          rw [State.goto_pc_self]
          exact .inr (.born hi)
        · exact .inl (State.goto_pc_of_ne _ hqi)
  | closed hcl => exact hmove rfl (.closes hcl)
  | @unlinked p sd s t hp hr =>
      refine hmove rfl (.unlinked hp hr ?_)
      show (t.modify s _ s).linked = false
      rw [STable.modify_self]
  | @unlinkSleeps p sd s t hp hr =>
      exact hmove (p := p) (c := .unlinkLoop sd s) rfl (.unlinkSleeps hp)
  | took ht => exact hmove rfl ht.goes
  | waitSleeps => exact .inl rfl
  | @messaged p hp =>
      refine hmove (p := p) (c := .body .postWrite) ?_ (.body (.inr ⟨_, hp⟩))
      unfold State.message
      split <;> rfl
  | posted ht => exact hmove rfl ht.goes
  | postRefused ht => exact hmove rfl ht.goes
  | childrenLeft => exact .inl rfl
  | exited hp => exact hmove rfl (.exited hp)
  | @reaped c i hp hi hc =>
      by_cases hqn : q = none
      · subst hqn
        rw [State.goto_pc_self]
        exact .inr (.waits hp)
      · rw [State.goto_pc_of_ne _ hqn]
        by_cases hqc : q = some c
        · subst hqc
          rw [State.goto_pc_self]
          exact .inr (.reaped hc)
        · exact .inl (State.goto_pc_of_ne _ hqc)

end OsSolutions.ProdCons
