import OsSolutions.Verification.ProdCons.Ledger

/-! # Leaving the loops

A producer leaves its loop after `msgNumPerProd` rounds, and a consumer when `total` is
empty. Nobody posts on `total`, so it stays empty. -/

namespace OsSolutions.ProdCons

open Transition

variable {main : Main} {clean : Prop} {st st' : State main} {a : Act main} {p : Proc main}

/-- Past the loop of a producer or consumer. -/
def Pc.gone : Pc → Bool
  | .exit _ | .exited | .reaped => true
  | _ => false

/-- The rounds that a producer can have made at a control point. -/
def RoundsAt (m : ℕ) (c : Pc) (j : ℕ) : Prop :=
  j ≤ m ∧ (c.inBody = true → j < m) ∧ (c.gone = true → j = m)

def Rounds (st : State main) : Prop :=
  ∀ p, p.isProducer = true → RoundsAt main.msgNumPerProd (st.pc p) (st.rounds p)

/-- Once a consumer has left its loop there is nothing left in `total`. -/
def Emptied (st : State main) : Prop :=
  ∀ i, Proc.isProducer (some i : Proc main) = false → (st.pc (some i)).gone = true →
    ∀ s, st.opened totald = some s → (st.table s).count.toInt ≤ 0

/-! ## Where a process goes -/

theorem afterUnlink_cases (p : Proc main) (sd : Fin NOSEM) :
    (∀ x s, p.afterUnlink sd ≠ .unlinking x s) ∧ (∀ x s, p.afterUnlink sd ≠ .unlinkLoop x s) ∧
      p.afterUnlink sd ≠ .exited := by
  unfold Proc.afterUnlink
  split
  · split <;> simp
  · simp

theorem closes_cases {sd : Fin NOSEM} {next : Pc} (hc : Closes st p sd next) :
    (∀ x s, next ≠ .unlinking x s) ∧ (∀ x s, next ≠ .unlinkLoop x s) ∧ next ≠ .exited := by
  rcases hc with ⟨_, rfl⟩ | ⟨_, rfl⟩
  · unfold Proc.afterClose
    split <;> simp
  · simp

theorem takes_cases {sd : Fin NOSEM} {next : Pc} (ht : Takes st p sd next) :
    ∃ ph, next = .body ph := by
  rcases ht with ⟨_, _, _, rfl⟩ | ⟨_, _, rfl⟩ | ⟨_, _, rfl⟩ <;> exact ⟨_, rfl⟩

theorem posts_cases {sd : Fin NOSEM} {next : Pc} {j : ℕ} (ht : Posts st p sd next j) :
    next = .loop ∨ ∃ ph, next = .body ph := by
  rcases ht with ⟨_, _, rfl, _⟩ | ⟨_, _, rfl, _⟩
  · exact .inr ⟨_, rfl⟩
  · exact .inl rfl

/-! ## Rounds -/

theorem Rounds.update (h : Rounds st) {c : Pc} {j : ℕ}
    (hpc : st'.pc = Function.update st.pc p c)
    (hrounds : st'.rounds = Function.update st.rounds p j)
    (hnew : p.isProducer = true → RoundsAt main.msgNumPerProd (st.pc p) (st.rounds p) →
      RoundsAt main.msgNumPerProd c j) : Rounds st' := by
  intro q hq
  by_cases hqp : q = p
  · subst hqp
    rw [hpc, hrounds, Function.update_self, Function.update_self]
    exact hnew hq (h q hq)
  · rw [hpc, hrounds, Function.update_of_ne hqp, Function.update_of_ne hqp]
    exact h q hq

/-- A move that neither enters the loop's body nor leaves the loop. -/
theorem Rounds.move (h : Rounds st) {c : Pc} (hpc : st'.pc = Function.update st.pc p c)
    (hrounds : st'.rounds = st.rounds)
    (hbody : p.isProducer = true → c.inBody = true → (st.pc p).inBody = true)
    (hgone : p.isProducer = true → c.gone = true → (st.pc p).gone = true) : Rounds st' := by
  refine h.update hpc (hrounds.trans (Function.update_eq_self p st.rounds).symm) ?_
  intro hp hold
  exact ⟨hold.1, fun hc => hold.2.1 (hbody hp hc), fun hc => hold.2.2 (hgone hp hc)⟩

/-- Only the parent goes from `sem_unlink` to its exit. -/
theorem gone_afterUnlink {sd : Fin NOSEM} (hp : p.isProducer = true) :
    (p.afterUnlink sd).gone = false := by
  cases p with
  | none => cases hp
  | some i => rfl

theorem gone_closes {sd : Fin NOSEM} {next : Pc} (hc : Closes st p sd next)
    (hnext : next.gone = true) : (st.pc p).gone = true := by
  rcases hc with ⟨_, rfl⟩ | ⟨hp, _⟩
  · unfold Proc.afterClose at hnext
    split at hnext <;> cases hnext
  · rw [hp]
    rfl

/-- The last post of a round ends it. -/
theorem Rounds.posts (h : Rounds st) {sd : Fin NOSEM} {next : Pc} {j : ℕ}
    (ht : Posts st p sd next j) (hpc : st'.pc = Function.update st.pc p next)
    (hrounds : st'.rounds = Function.update st.rounds p j) : Rounds st' := by
  refine h.update hpc hrounds ?_
  intro _ hold
  rcases ht with ⟨hp, _, rfl, rfl⟩ | ⟨hp, _, rfl, rfl⟩
  · rw [hp] at hold
    exact ⟨hold.1, fun _ => hold.2.1 rfl, fun hc => by cases hc⟩
  · rw [hp] at hold
    exact ⟨hold.2.1 rfl, fun hc => (by cases hc), fun hc => by cases hc⟩

/-- Neither `sem_close` nor `sem_unlink` leads into the loop. -/
theorem Rounds.closes (h : Rounds st) {sd : Fin NOSEM} {next : Pc} (hc : Closes st p sd next)
    (hpc : st'.pc = Function.update st.pc p next) (hrounds : st'.rounds = st.rounds) :
    Rounds st' := by
  refine h.move hpc hrounds ?_ fun _ => gone_closes hc
  intro _ hin
  rw [(outside_closes hc).2] at hin
  cases hin

theorem Rounds.unlinks (h : Rounds st) {sd : Fin NOSEM}
    (hpc : st'.pc = Function.update st.pc p (p.afterUnlink sd))
    (hrounds : st'.rounds = st.rounds) : Rounds st' := by
  refine h.move hpc hrounds ?_ ?_
  · intro _ hin
    rw [outside_afterUnlink] at hin
    cases hin
  · intro hp hin
    rw [gone_afterUnlink hp] at hin
    cases hin

theorem step_rounds (h : Rounds st) (hs : Step st a st') : Rounds st' := by
  have hstay : ∀ {p : Proc main} {c : Pc}, c.inBody = false → c.gone = false →
      st'.pc = Function.update st.pc p c → st'.rounds = st.rounds → Rounds st' := by
    intro p c hb hg hpc hrounds
    exact h.move hpc hrounds (fun _ hc => absurd (hb.symm.trans hc) (by decide))
      fun _ hc => absurd (hg.symm.trans hc) (by decide)
  cases hs with
  | @moved p c hm =>
      cases hm with
      | forkedAll => exact hstay rfl rfl rfl rfl
      | found => exact hstay rfl rfl rfl rfl
      | notFound => exact h.unlinks rfl rfl
      | produces hp hprod hj =>
          exact h.update rfl (Function.update_eq_self p st.rounds).symm fun _ _ =>
            ⟨Nat.le_of_lt hj, fun _ => hj, fun hc => by cases hc⟩
      | produced hp hprod hj =>
          exact h.update rfl (Function.update_eq_self p st.rounds).symm fun _ hold =>
            ⟨hold.1, fun hc => (by cases hc), fun _ => Nat.le_antisymm hold.1 (Nat.le_of_not_lt hj)⟩
      | emptied hp hprod =>
          refine h.move rfl rfl (fun _ hc => by cases hc) ?_
          intro hprod' _
          rw [hprod] at hprod'
          cases hprod'
      | badWait ht hloop =>
          rcases ht with ⟨hp, _⟩ | ⟨hp, _, rfl⟩ | ⟨hp, _, rfl⟩
          · exact absurd hp hloop
          · exact h.move rfl rfl (fun _ _ => by rw [hp]; rfl) fun _ hc => by cases hc
          · exact h.move rfl rfl (fun _ _ => by rw [hp]; rfl) fun _ hc => by cases hc
      | childless => exact hstay rfl rfl rfl rfl
      | waited => exact hstay rfl rfl rfl rfl
      | notOpen hc => exact h.closes hc rfl rfl
  | @opened p sd hp =>
      apply hstay (p := p) (c := Proc.afterOpen sd)
      · unfold Proc.afterOpen
        split <;> rfl
      · unfold Proc.afterOpen
        split <;> rfl
      · rfl
      · rfl
  | copied => exact hstay rfl rfl rfl rfl
  | copiedNone => exact hstay rfl rfl rfl rfl
  | @forked p i k hp hi hk =>
      have hmade : Rounds (st.goto (some i) (.semClose waitcd)) :=
        h.move rfl rfl (fun _ hc => by cases hc) fun _ hc => by cases hc
      exact hmade.move rfl rfl (fun _ hc => by cases hc) fun _ hc => by cases hc
  | closed hc => exact h.closes hc rfl rfl
  | unlinked => exact h.unlinks rfl rfl
  | unlinkSleeps => exact hstay rfl rfl rfl rfl
  | @took p sd next s ht hs hpos =>
      rcases ht with ⟨_, hprod, _⟩ | ⟨hp, _, rfl⟩ | ⟨hp, _, rfl⟩
      · refine h.update rfl (Function.update_eq_self p st.rounds).symm ?_
        intro hprod'
        rw [hprod] at hprod'
        cases hprod'
      · exact h.move rfl rfl (fun _ _ => by rw [hp]; rfl) fun _ hc => by cases hc
      · exact h.move rfl rfl (fun _ _ => by rw [hp]; rfl) fun _ hc => by cases hc
  | waitSleeps => exact h
  | @messaged p hp =>
      unfold State.message
      split <;> exact h.move rfl rfl (fun _ _ => by rw [hp]; rfl) fun _ hc => by cases hc
  | posted ht => exact h.posts ht rfl rfl
  | postRefused ht => exact h.posts ht rfl rfl
  | childrenLeft => exact h
  | exited hp => exact h.move rfl rfl (fun _ hc => by cases hc) fun _ _ => by rw [hp]; rfl
  | @reaped c i hp hi hc =>
      have hreap : Rounds (st.goto (some c) .reaped) :=
        h.move rfl rfl (fun _ hc => by cases hc) fun _ _ => by rw [hc]; rfl
      exact hreap.move rfl rfl (fun _ hc => by cases hc) fun _ hc => by cases hc

theorem rounds_start (main : Main) (table : STable) : Rounds (start main table) := by
  intro p hp
  cases p with
  | none => cases hp
  | some i => exact ⟨Nat.zero_le _, fun hc => (by cases hc), fun hc => by cases hc⟩

/-! ## The end of `total` -/

theorem posts_ne_totald {sd : Fin NOSEM} {next : Pc} {j : ℕ} (ht : Posts st p sd next j) :
    sd ≠ totald := by
  rcases ht with ⟨_, rfl, _⟩ | ⟨_, rfl, _⟩
  · decide
  · unfold Proc.posts
    split <;> decide

/-- The count of `total` never goes up. -/
theorem step_total_le (hd : Descr clean st) (hs : Step st a st')
    (hn : ∀ ds, st.pc none ≠ .semOpen ds) (hc : Control st.pc) {s : Fin NSEM}
    (ht : st.opened totald = some s) :
    st'.opened = st.opened ∧ (st'.table s).count.toInt ≤ (st.table s).count.toInt := by
  have hkeep : ∀ {t : STable}, (t s).count = (st.table s).count →
      (t s).count.toInt ≤ (st.table s).count.toInt := by
    intro t heq
    rw [heq]
  cases hs with
  | moved hm => exact ⟨rfl, le_rfl⟩
  | @opened p sd hp =>
      obtain rfl := only_parent_opens hc hp
      exact absurd hp (hn sd)
  | copied => exact ⟨rfl, hkeep (STable.modify_field Sem.count _ _ s rfl)⟩
  | copiedNone => exact ⟨rfl, le_rfl⟩
  | forked => exact ⟨rfl, le_rfl⟩
  | closed => exact ⟨rfl, hkeep (STable.modify_field Sem.count _ _ s rfl)⟩
  | @unlinked p sd u t hp =>
      exact ⟨rfl, hkeep ((STable.modify_field Sem.count t u s rfl).trans (hp.units s).1)⟩
  | unlinkSleeps hp => exact ⟨rfl, hkeep (hp.units s).1⟩
  | @took p sd next u _ hs hpos =>
      refine ⟨rfl, ?_⟩
      show ((st.table.modify u _ s).count).toInt ≤ _
      rw [STable.modify_apply]
      split
      · rename_i heq
        subst heq
        rw [Slot.toInt_pred hpos]
        omega
      · exact le_rfl
  | waitSleeps => exact ⟨rfl, le_rfl⟩
  | messaged =>
      unfold State.message
      split <;> exact ⟨rfl, le_rfl⟩
  | @posted p sd next j u hp hs =>
      obtain ⟨hopen, _⟩ := hd.opened_of_osem hs
      have hne : s ≠ u := by
        intro heq
        subst heq
        exact posts_ne_totald hp (hd.injective sd totald s hopen ht)
      refine ⟨rfl, ?_⟩
      show (st.table.modify u _ s).count.toInt ≤ _
      rw [STable.modify_of_ne _ _ hne]
  | postRefused => exact ⟨rfl, le_rfl⟩
  | childrenLeft => exact ⟨rfl, le_rfl⟩
  | exited => exact ⟨rfl, le_rfl⟩
  | reaped => exact ⟨rfl, le_rfl⟩

/-- A consumer leaves its loop when it finds `total` empty. -/
theorem newly_gone (hs : Step st a st') {i : Fin main.children}
    (hprod : Proc.isProducer (some i : Proc main) = false)
    (hgone : (st'.pc (some i)).gone = true) :
    (st.pc (some i)).gone = true ∨ (st.pc (some i) = .loop ∧
      ∀ s, st.osem (some i) totald = some s → ¬ 0 < (st.table s).count) := by
  rcases hs.goes (some i) with heq | hgo
  · exact .inl (heq ▸ hgone)
  generalize st'.pc (some i) = c at hgone hgo
  cases hgo with
  | @opened sd hp =>
      unfold Proc.afterOpen at hgone
      split at hgone <;> cases hgone
  | closes hcl => exact .inl (gone_closes hcl hgone)
  | produced _ hprod' =>
      rw [hprod] at hprod'
      cases hprod'
  | emptied hp _ hempty => exact .inr ⟨hp, hempty⟩
  | exited hp => exact .inl (by rw [hp]; rfl)
  | reaped hp => exact .inl (by rw [hp]; rfl)
  | _ => cases hgone

theorem step_emptied (h : Emptied st) (hd : Descr clean st) (hc : Control st.pc)
    (hs : Step st a st') : Emptied st' := by
  intro i hprod hgone s ht
  rcases opening_or_later hc hs with ⟨sd, rfl, hp, rfl⟩ | hn
  · have hi : (st.semOpen none sd).pc (some i) = st.pc (some i) := rfl
    have hmade := hc.made i
    rw [hp] at hmade
    have hembryo : st.pc (some i) = .embryo 0 := hmade
    rw [hi, hembryo] at hgone
    cases hgone
  · obtain ⟨u, hu⟩ := hd.isOpen totald fun ds hds => absurd hds (hn ds)
    obtain ⟨hopened, hle⟩ := step_total_le hd hs hn hc hu
    rw [hopened] at ht
    obtain rfl : u = s := Option.some.inj (hu.symm.trans ht)
    rcases newly_gone hs hprod hgone with hold | ⟨hp, hempty⟩
    · exact hle.trans (h i hprod hold u hu)
    · have hh : holds (some i) (st.pc (some i)) totald = true := by
        rw [hp]
        rfl
      obtain ⟨v, hosem, hv⟩ := hd.open_of_holds hn hh
      obtain rfl : u = v := Option.some.inj (hu.symm.trans hv)
      have hnot := hempty u hosem
      rw [Int32.lt_iff_toInt_lt] at hnot
      have hzero : (0 : Int32).toInt = 0 := rfl
      omega

theorem emptied_start (main : Main) (table : STable) : Emptied (start main table) := by
  intro i _ _ s hs
  cases hs

end OsSolutions.ProdCons
