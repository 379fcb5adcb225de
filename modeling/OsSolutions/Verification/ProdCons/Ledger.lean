import OsSolutions.Verification.ProdCons.Creation
import OsSolutions.Verification.Slot.Conservation
import Mathlib.Tactic.FinCases

/-! # The units of the semaphores

Every unit of a semaphore is either in its count or with the processes that took one and
have not posted one. The control points say how many units each process took and posted. -/

namespace OsSolutions.ProdCons

open Transition

variable {main : Main}

/-! ## What a process has done in its current round -/

namespace Pc

/-- In the body of the loop. -/
def inBody : Pc → Bool
  | .body _ => true
  | _ => false

/-- Past the first `sem_wait`. -/
def inside : Pc → Bool
  | .body .waitBuff => false
  | .body _ => true
  | _ => false

/-- Past `sem_wait(write)`. -/
def gotWrite : Pc → Bool
  | .body .message | .body .postWrite | .body .postBuff => true
  | _ => false

/-- Between `sem_wait(write)` and `sem_post(write)`. -/
def inWrite : Pc → Bool
  | .body .message | .body .postWrite => true
  | _ => false

/-- Past the message. -/
def wrote : Pc → Bool
  | .body .postWrite | .body .postBuff => true
  | _ => false

/-- Past `sem_post(write)`. -/
def putWrite : Pc → Bool
  | .body .postBuff => true
  | _ => false

end Pc

/-- The units of `sd` that a process took in `j` rounds and up to its control point. -/
def debit (sd : Fin NOSEM) (p : Proc main) (c : Pc) (j : ℕ) : ℕ :=
  match sd with
  | 0 => 0
  | 1 => if p.isProducer = true then j + c.inside.toNat else 0
  | 2 => if p.isProducer = true then 0 else j + c.inside.toNat
  | 3 => if p.isProducer = true then 0 else j + c.inBody.toNat
  | 4 => j + c.gotWrite.toNat

/-- The units of `sd` that a process posted. -/
def credit (sd : Fin NOSEM) (p : Proc main) (c : Pc) (j : ℕ) : ℕ :=
  match sd with
  | 0 => 0
  | 1 => if p.isProducer = true then 0 else j
  | 2 => if p.isProducer = true then j else 0
  | 3 => 0
  | 4 => j + c.putWrite.toNat

/-- The messages that a process has written. -/
def messages (c : Pc) (j : ℕ) : ℕ := j + c.wrote.toNat

def total (f : Proc main → Pc → ℕ → ℕ) (st : State main) : ℕ :=
  tally fun p => f p (st.pc p) (st.rounds p)

/-- Producers between `sem_wait(buffa)` and `sem_post(buffb)`. -/
def producing (p : Proc main) (c : Pc) (_ : ℕ) : ℕ :=
  if p.isProducer = true then c.inside.toNat else 0

/-- Consumers between `sem_wait(buffb)` and `sem_post(buffa)`. -/
def consuming (p : Proc main) (c : Pc) (_ : ℕ) : ℕ :=
  if p.isProducer = true then 0 else c.inside.toNat

/-- Processes between `sem_wait(write)` and `sem_post(write)`. -/
def writing (_ : Proc main) (c : Pc) (_ : ℕ) : ℕ := c.inWrite.toNat

def produced (p : Proc main) (c : Pc) (j : ℕ) : ℕ :=
  if p.isProducer = true then messages c j else 0

def consumed (p : Proc main) (c : Pc) (j : ℕ) : ℕ :=
  if p.isProducer = true then 0 else messages c j

structure Ledger (st : State main) : Prop where
  balance : ∀ sd s, st.opened sd = some s →
    (st.table s).count.toInt + total (debit sd) st = main.init sd + total (credit sd) st
  maxVal : ∀ sd s, st.opened sd = some s → (st.table s).maxVal.toInt = main.maxVal sd
  nonneg : ∀ sd s, st.opened sd = some s → 0 ≤ (st.table s).count.toInt
  written : st.written = total produced st
  taken : st.taken = total consumed st
  unmade : ∀ ds, st.pc none = .semOpen ds → ∀ p, st.rounds p = 0

variable {clean : Prop} {st st' : State main} {a : Act main} {p : Proc main}

theorem le_total (f : Proc main → Pc → ℕ → ℕ) (st : State main) (p : Proc main) :
    f p (st.pc p) (st.rounds p) ≤ total f st :=
  le_tally (fun q => f q (st.pc q) (st.rounds q)) p

/-- One process has moved. -/
theorem total_move {f : Proc main → Pc → ℕ → ℕ}
    (h : ∀ q, q ≠ p → st'.pc q = st.pc q ∧ st'.rounds q = st.rounds q) :
    total f st' + f p (st.pc p) (st.rounds p) = total f st + f p (st'.pc p) (st'.rounds p) := by
  apply tally_of_eq_off p
  intro q hq
  rw [(h q hq).1, (h q hq).2]

/-! ## Where the units are -/

/-- What has been taken of `buffa` and not posted on `buffb` is with the producers inside a
round. -/
theorem total_debit_buffa (st : State main) :
    total (debit buffa) st = total (credit buffb) st + total producing st := by
  rw [total, total, total, ← tally_add]
  apply tally_congr
  intro p
  simp only [debit, credit, producing]
  split <;> simp

theorem total_debit_buffb (st : State main) :
    total (debit buffb) st = total (credit buffa) st + total consuming st := by
  rw [total, total, total, ← tally_add]
  apply tally_congr
  intro p
  simp only [debit, credit, consuming]
  split <;> simp

theorem total_debit_write (st : State main) :
    total (debit write) st = total (credit write) st + total writing st := by
  rw [total, total, total, ← tally_add]
  apply tally_congr
  intro p
  simp only [debit, credit, writing, Nat.add_assoc, Nat.add_left_cancel_iff]
  cases hc : st.pc p with
  | body ph => cases ph <;> rfl
  | _ => rfl

/-- The buffer semaphores and the processes inside a round share the slots of the buffer. -/
theorem Ledger.buffers (h : Ledger st) {a b : Fin NSEM} (ha : st.opened buffa = some a)
    (hb : st.opened buffb = some b) :
    (st.table a).count.toInt + (st.table b).count.toInt + total producing st +
      total consuming st = MAX_MSG := by
  have hba := h.balance buffa a ha
  have hbb := h.balance buffb b hb
  have hda := total_debit_buffa st
  have hdb := total_debit_buffb st
  simp only [Main.init] at hba hbb
  omega

theorem Ledger.mutex (h : Ledger st) {w : Fin NSEM} (hw : st.opened write = some w) :
    (st.table w).count.toInt + total writing st = 1 := by
  have hbw := h.balance write w hw
  have hdw := total_debit_write st
  simp only [Main.init] at hbw
  omega

/-- A semaphore is not full while a process is about to post on it. -/
theorem Ledger.room (h : Ledger st) (hd : Descr clean st) (hn : ∀ ds, st.pc none ≠ .semOpen ds)
    {sd : Fin NOSEM} {next : Pc} {j : ℕ} {s : Fin NSEM} (hp : Posts st p sd next j)
    (hs : st.opened sd = some s) : (st.table s).count < (st.table s).maxVal := by
  rw [Int32.lt_iff_toInt_lt, h.maxVal sd s hs]
  obtain ⟨a, ha⟩ := hd.isOpen buffa fun ds hds => absurd hds (hn ds)
  obtain ⟨b, hb⟩ := hd.isOpen buffb fun ds hds => absurd hds (hn ds)
  have hna := h.nonneg buffa a ha
  have hnb := h.nonneg buffb b hb
  have hbuff := h.buffers ha hb
  rcases hp with ⟨hpc, rfl, _⟩ | ⟨hpc, hsd, _⟩
  · have hle := le_total writing st p
    have hone : writing p (st.pc p) (st.rounds p) = 1 := by
      rw [hpc]
      rfl
    have hm := h.mutex hs
    have hmax : main.maxVal write = 1 := rfl
    omega
  · cases hprod : p.isProducer with
    | true =>
        have hle := le_total producing st p
        have hone : producing p (st.pc p) (st.rounds p) = 1 := by
          rw [hpc, producing, if_pos hprod]
          rfl
        obtain rfl : sd = buffb := by simpa [Proc.posts, hprod] using hsd
        obtain rfl : s = b := Option.some.inj (hs.symm.trans hb)
        have hmax : main.maxVal buffb = MAX_MSG := rfl
        omega
    | false =>
        have hle := le_total consuming st p
        have hone : consuming p (st.pc p) (st.rounds p) = 1 := by
          rw [hpc, consuming, if_neg (by simp [hprod])]
          rfl
        obtain rfl : sd = buffa := by simpa [Proc.posts, hprod] using hsd
        obtain rfl : s = a := Option.some.inj (hs.symm.trans ha)
        have hmax : main.maxVal buffa = MAX_MSG := rfl
        omega

/-! ## Steps -/

/-- `p` moves, and its units with it. -/
theorem Ledger.update (h : Ledger st) (p : Proc main) (hn : ∀ ds, st'.pc none ≠ .semOpen ds)
    (hopened : st'.opened = st.opened)
    (hoff : ∀ q, q ≠ p → st'.pc q = st.pc q ∧ st'.rounds q = st.rounds q)
    (hcount : ∀ sd s, st.opened sd = some s →
      (st'.table s).count.toInt + debit sd p (st'.pc p) (st'.rounds p) +
          credit sd p (st.pc p) (st.rounds p) =
        (st.table s).count.toInt + debit sd p (st.pc p) (st.rounds p) +
          credit sd p (st'.pc p) (st'.rounds p))
    (hnonneg : ∀ sd s, st.opened sd = some s → 0 ≤ (st'.table s).count.toInt)
    (hmax : ∀ s, (st'.table s).maxVal = (st.table s).maxVal)
    (hwritten : st'.written + produced p (st.pc p) (st.rounds p) =
      st.written + produced p (st'.pc p) (st'.rounds p))
    (htaken : st'.taken + consumed p (st.pc p) (st.rounds p) =
      st.taken + consumed p (st'.pc p) (st'.rounds p)) : Ledger st' where
  balance sd s hs := by
    rw [hopened] at hs
    have hbal := h.balance sd s hs
    have hdebit := total_move (f := debit sd) hoff
    have hcredit := total_move (f := credit sd) hoff
    have hmoved := hcount sd s hs
    omega
  maxVal sd s hs := by
    rw [hmax]
    exact h.maxVal sd s (hopened ▸ hs)
  nonneg sd s hs := hnonneg sd s (hopened ▸ hs)
  written := by
    have hmoved := total_move (f := produced) hoff
    have hbefore := h.written
    omega
  taken := by
    have hmoved := total_move (f := consumed) hoff
    have hbefore := h.taken
    omega
  unmade ds hds := absurd hds (hn ds)

/-- The units of a process are the same at the two control points. -/
def SameUnits (p : Proc main) (c d : Pc) : Prop :=
  ∀ j, (∀ sd, debit sd p d j = debit sd p c j ∧ credit sd p d j = credit sd p c j) ∧
    messages d j = messages c j

theorem sameUnits_of_outside {c d : Pc} (hc : c.inBody = false) (hd : d.inBody = false) :
    SameUnits p c d := by
  have hfalse : ∀ {e : Pc}, e.inBody = false → e.inside = false ∧ e.gotWrite = false ∧
      e.wrote = false ∧ e.putWrite = false := by
    intro e he
    cases e with
    | body ph => cases he
    | _ => exact ⟨rfl, rfl, rfl, rfl⟩
  intro j
  simp [debit, credit, messages, hfalse hc, hfalse hd, hc, hd]

theorem Ledger.quiet (h : Ledger st) {c : Pc} (hpc : st'.pc = Function.update st.pc p c)
    (hn : ∀ ds, st.pc none ≠ .semOpen ds) (hc : ∀ ds, c ≠ .semOpen ds)
    (hsame : SameUnits p (st.pc p) c) (hopened : st'.opened = st.opened)
    (hrounds : st'.rounds = st.rounds) (hwritten : st'.written = st.written)
    (htaken : st'.taken = st.taken) (hcount : ∀ s, (st'.table s).count = (st.table s).count)
    (hmax : ∀ s, (st'.table s).maxVal = (st.table s).maxVal) : Ledger st' := by
  have hself : st'.pc p = c := by simp [hpc]
  obtain ⟨hunits, hmessages⟩ := hsame (st.rounds p)
  apply h.update p _ hopened
  · intro q hq
    simp [hpc, hrounds, hq]
  · intro sd s _
    rw [hself, hrounds, hcount, (hunits sd).1, (hunits sd).2]
  · intro sd s hs
    rw [hcount]
    exact h.nonneg sd s hs
  · exact hmax
  · simp only [produced, hself, hrounds, hwritten, hmessages]
  · simp only [consumed, hself, hrounds, htaken, hmessages]
  · rw [hpc]
    exact not_open_update hn hc

theorem outside_afterUnlink (p : Proc main) (sd : Fin NOSEM) :
    (p.afterUnlink sd).inBody = false := by
  unfold Proc.afterUnlink
  split
  · split <;> rfl
  · rfl

theorem outside_closes {sd : Fin NOSEM} {next : Pc} (hc : Closes st p sd next) :
    (st.pc p).inBody = false ∧ next.inBody = false := by
  rcases hc with ⟨hp, rfl⟩ | ⟨hp, rfl⟩
  · rw [hp]
    unfold Proc.afterClose
    split <;> exact ⟨rfl, rfl⟩
  · rw [hp]
    exact ⟨rfl, rfl⟩

theorem outside_passes {sd : Fin NOSEM} {s : Fin NSEM} {t : STable} (hp : Passes st p sd s t) :
    (st.pc p).inBody = false := by
  rcases hp with ⟨hp, _⟩ | ⟨hp, _⟩ <;> rw [hp] <;> rfl

theorem Passes.units {sd : Fin NOSEM} {s : Fin NSEM} {t : STable} (hp : Passes st p sd s t)
    (u : Fin NSEM) : (t u).count = (st.table u).count ∧ (t u).maxVal = (st.table u).maxVal := by
  rcases hp with ⟨_, rfl⟩ | ⟨_, rfl⟩
  · exact ⟨STable.modify_field Sem.count st.table s u rfl,
      STable.modify_field Sem.maxVal st.table s u rfl⟩
  · exact ⟨rfl, rfl⟩

theorem Ledger.moved (h : Ledger st) (hd : Descr clean st) (hn : ∀ ds, st.pc none ≠ .semOpen ds)
    {c : Pc} (hm : Move st p c) : Ledger (st.goto p c) := by
  have hgo : (∀ ds, c ≠ .semOpen ds) → SameUnits p (st.pc p) c → Ledger (st.goto p c) :=
    fun hc hsame => h.quiet rfl hn hc hsame rfl rfl rfl rfl (fun _ => rfl) fun _ => rfl
  cases hm with
  | forkedAll hp => exact hgo (by simp) (hp ▸ sameUnits_of_outside rfl rfl)
  | found hp => exact hgo (by simp) (hp ▸ sameUnits_of_outside rfl rfl)
  | notFound hp =>
      exact hgo (afterUnlink_ne_semOpen _)
        (hp ▸ sameUnits_of_outside rfl (outside_afterUnlink p _))
  | produces hp hprod =>
      apply hgo (by simp)
      intro j
      rw [hp]
      refine ⟨fun sd => ?_, rfl⟩
      -- only consumers claim a message here
      fin_cases sd <;> simp [debit, credit, hprod, Pc.inside, Pc.gotWrite, Pc.putWrite]
  | produced hp => exact hgo (by simp) (hp ▸ sameUnits_of_outside rfl rfl)
  | emptied hp => exact hgo (by simp) (hp ▸ sameUnits_of_outside rfl rfl)
  | @badWait sd next ht hloop hs =>
      have hh : holds p (st.pc p) sd = true := by
        rcases ht with ⟨hp, _⟩ | ⟨hp, rfl, _⟩ | ⟨hp, rfl, _⟩
        · exact absurd hp hloop
        · rw [hp, Proc.waits]
          split <;> rfl
        · rw [hp]
          rfl
      obtain ⟨s, hs', _⟩ := hd.open_of_holds hn hh
      rw [hs] at hs'
      cases hs'
  | childless hp => exact hgo (by simp) (hp ▸ sameUnits_of_outside rfl rfl)
  | waited hp => exact hgo (by simp) (hp ▸ sameUnits_of_outside rfl rfl)
  | notOpen hc =>
      exact hgo (not_open_closes hc)
        (sameUnits_of_outside (outside_closes hc).1 (outside_closes hc).2)

/-- Taking a unit is a debit of the process. -/
theorem debit_takes {sd : Fin NOSEM} {next : Pc} (ht : Takes st p sd next) (j : ℕ) :
    (∀ x, debit x p next j = debit x p (st.pc p) j + (if x = sd then 1 else 0) ∧
      credit x p next j = credit x p (st.pc p) j) ∧ messages next j = messages (st.pc p) j := by
  rcases ht with ⟨hp, hprod, rfl, rfl⟩ | ⟨hp, rfl, rfl⟩ | ⟨hp, rfl, rfl⟩
  · rw [hp]
    refine ⟨fun x => ?_, rfl⟩
    fin_cases x <;>
      simp +decide [debit, credit, hprod, Pc.inside, Pc.inBody, Pc.gotWrite, Pc.putWrite]
  · rw [hp]
    refine ⟨fun x => ?_, rfl⟩
    cases hprod : p.isProducer <;> fin_cases x <;>
      simp +decide [debit, credit, hprod, Proc.waits, Pc.inside, Pc.inBody, Pc.gotWrite,
        Pc.putWrite]
  · rw [hp]
    refine ⟨fun x => ?_, rfl⟩
    fin_cases x <;>
      simp +decide [debit, credit, Pc.inside, Pc.inBody, Pc.gotWrite, Pc.putWrite]

/-- Posting a unit is a credit of the process. -/
theorem credit_posts {sd : Fin NOSEM} {next : Pc} {j : ℕ} (ht : Posts st p sd next j) :
    (∀ x, debit x p next j = debit x p (st.pc p) (st.rounds p) ∧
      credit x p next j = credit x p (st.pc p) (st.rounds p) + (if x = sd then 1 else 0)) ∧
        messages next j = messages (st.pc p) (st.rounds p) := by
  rcases ht with ⟨hp, rfl, rfl, rfl⟩ | ⟨hp, rfl, rfl, rfl⟩
  · rw [hp]
    refine ⟨fun x => ?_, rfl⟩
    fin_cases x <;>
      simp +decide [debit, credit, Pc.inside, Pc.inBody, Pc.gotWrite, Pc.putWrite]
  · rw [hp]
    refine ⟨fun x => ?_, rfl⟩
    cases hprod : p.isProducer <;> fin_cases x <;>
      simp +decide [debit, credit, hprod, Proc.posts, Pc.inside, Pc.inBody, Pc.gotWrite,
        Pc.putWrite]

/-- `p` moves, and only the slot of `sd` changes its count. -/
theorem Ledger.shift (h : Ledger st) (hd : Descr clean st) (hn : ∀ ds, st.pc none ≠ .semOpen ds)
    {sd : Fin NOSEM} {s : Fin NSEM} {x : Sem} {c : Pc} {j : ℕ} (hs : st.opened sd = some s)
    (hc : ∀ ds, c ≠ .semOpen ds) (hpc : st'.pc = Function.update st.pc p c)
    (hrounds : st'.rounds = Function.update st.rounds p j)
    (htable : st'.table = st.table.modify s fun _ => x) (hopened : st'.opened = st.opened)
    (hwritten : st'.written = st.written) (htaken : st'.taken = st.taken)
    (hmax : x.maxVal = (st.table s).maxVal) (hnonneg : 0 ≤ x.count.toInt)
    (hmoved : x.count.toInt + debit sd p c j + credit sd p (st.pc p) (st.rounds p) =
      (st.table s).count.toInt + debit sd p (st.pc p) (st.rounds p) + credit sd p c j)
    (hother : ∀ y, y ≠ sd → debit y p c j = debit y p (st.pc p) (st.rounds p) ∧
      credit y p c j = credit y p (st.pc p) (st.rounds p))
    (hmessages : messages c j = messages (st.pc p) (st.rounds p)) : Ledger st' := by
  have hpcp : st'.pc p = c := by simp [hpc]
  have hroundsp : st'.rounds p = j := by simp [hrounds]
  have hself : st'.table s = x := by simp [htable]
  have hrest : ∀ {u}, u ≠ s → st'.table u = st.table u := by
    intro u hu
    rw [htable]
    exact STable.modify_of_ne _ _ hu
  have hne : ∀ {y u}, y ≠ sd → st.opened y = some u → u ≠ s := by
    intro y u hy hu heq
    subst heq
    exact hy (hd.injective y sd u hu hs)
  apply h.update p _ hopened
  · intro q hq
    simp [hpc, hrounds, hq]
  · intro y u hu
    rw [hpcp, hroundsp]
    by_cases hy : y = sd
    · subst hy
      obtain rfl : s = u := Option.some.inj (hs.symm.trans hu)
      rw [hself]
      exact hmoved
    · rw [hrest (hne hy hu), (hother y hy).1, (hother y hy).2]
  · intro y u hu
    by_cases hy : y = sd
    · subst hy
      obtain rfl : s = u := Option.some.inj (hs.symm.trans hu)
      rw [hself]
      exact hnonneg
    · rw [hrest (hne hy hu)]
      exact h.nonneg y u hu
  · intro u
    by_cases hu : u = s
    · subst hu
      rw [hself, hmax]
    · rw [hrest hu]
  · simp only [produced, hpcp, hroundsp, hwritten, hmessages]
  · simp only [consumed, hpcp, hroundsp, htaken, hmessages]
  · rw [hpc]
    exact not_open_update hn hc

theorem Ledger.takes (h : Ledger st) (hd : Descr clean st) (hn : ∀ ds, st.pc none ≠ .semOpen ds)
    {sd : Fin NOSEM} {next : Pc} {s : Fin NSEM} (ht : Takes st p sd next)
    (hs : st.osem p sd = some s) (hpos : 0 < (st.table s).count) :
    Ledger ((st.setSem s { st.table s with count := (st.table s).count - 1 }).goto p next) := by
  obtain ⟨hopen, _⟩ := hd.opened_of_osem hs
  obtain ⟨hunits, hmessages⟩ := debit_takes ht (st.rounds p)
  have hpred := Slot.toInt_pred hpos
  have hlt : (0 : Int32).toInt < (st.table s).count.toInt := Int32.lt_iff_toInt_lt.mp hpos
  have hzero : (0 : Int32).toInt = 0 := rfl
  refine h.shift hd hn hopen (holds_takes ht).1 rfl (Function.update_eq_self p st.rounds).symm rfl
    rfl rfl rfl rfl ?_ ?_ ?_ hmessages
  · show 0 ≤ ((st.table s).count - 1).toInt
    omega
  · show ((st.table s).count - 1).toInt + _ + _ = _
    rw [hpred, (hunits sd).1, (hunits sd).2]
    simp only [if_true]
    omega
  · intro y hy
    simpa [hy] using hunits y

theorem Ledger.posts (h : Ledger st) (hd : Descr clean st) (hn : ∀ ds, st.pc none ≠ .semOpen ds)
    {sd : Fin NOSEM} {next : Pc} {j : ℕ} {s : Fin NSEM} (ht : Posts st p sd next j)
    (hs : st.osem p sd = some s) (wake : Bool) :
    Ledger ((((st.setSem s { st.table s with count := (st.table s).count + 1 }).wakeIf wake
      (.sem s)).goto p next).setRounds p j) := by
  obtain ⟨hopen, _⟩ := hd.opened_of_osem hs
  obtain ⟨hunits, hmessages⟩ := credit_posts ht
  have hsucc := Sem.toInt_succ (h.room hd hn ht hopen)
  have hnonneg := h.nonneg sd s hopen
  refine h.shift hd hn hopen (holds_posts ht).1 rfl rfl rfl rfl rfl rfl rfl ?_ ?_ ?_ hmessages
  · show 0 ≤ ((st.table s).count + 1).toInt
    omega
  · show ((st.table s).count + 1).toInt + _ + _ = _
    rw [hsucc, (hunits sd).1, (hunits sd).2]
    simp only [if_true]
    omega
  · intro y hy
    simpa [hy] using hunits y

theorem Ledger.message (h : Ledger st) (hn : ∀ ds, st.pc none ≠ .semOpen ds)
    (hp : st.pc p = .body .message) :
    Ledger ((st.message p).goto p (.body .postWrite)) := by
  have hunits : ∀ sd j, debit sd p (.body .postWrite) j = debit sd p (.body .message) j ∧
      credit sd p (.body .postWrite) j = credit sd p (.body .message) j := by
    intro sd j
    fin_cases sd <;> simp [debit, credit, Pc.inside, Pc.inBody, Pc.gotWrite, Pc.putWrite]
  -- the message touches neither the table nor what anybody else has done
  have hkeep : (st.message p).table = st.table ∧ (st.message p).pc = st.pc ∧
      (st.message p).rounds = st.rounds ∧ (st.message p).opened = st.opened := by
    unfold State.message
    split <;> exact ⟨rfl, rfl, rfl, rfl⟩
  obtain ⟨htable, hpc, hrounds, hopened⟩ := hkeep
  have hnext : ∀ q, ((st.message p).goto p (.body .postWrite)).pc q =
      if q = p then .body .postWrite else st.pc q := by
    intro q
    rw [State.goto_pc_apply, hpc]
  have hone : messages (.body .postWrite) (st.rounds p) = st.rounds p + 1 := rfl
  have hnone : messages (.body .message) (st.rounds p) = st.rounds p := rfl
  apply h.update p
  · intro ds
    rw [hnext]
    split
    · simp
    · exact hn ds
  · exact hopened
  · intro q hq
    rw [hnext, if_neg hq]
    exact ⟨rfl, congrFun hrounds q⟩
  · intro sd s _
    rw [State.goto_pc_self, hp]
    show ((st.message p).table s).count.toInt + debit sd p _ ((st.message p).rounds p) + _ =
      _ + credit sd p _ ((st.message p).rounds p)
    rw [htable, hrounds, (hunits sd _).1, (hunits sd _).2]
  · intro sd s hs
    show 0 ≤ ((st.message p).table s).count.toInt
    rw [htable]
    exact h.nonneg sd s hs
  · intro s
    show ((st.message p).table s).maxVal = _
    rw [htable]
  · rw [State.goto_pc_self, hp]
    show (st.message p).written + _ = _ + produced p _ ((st.message p).rounds p)
    rw [hrounds]
    simp only [State.message, produced, hone, hnone]
    split
    · dsimp only
      omega
    · rfl
  · rw [State.goto_pc_self, hp]
    show (st.message p).taken + _ = _ + consumed p _ ((st.message p).rounds p)
    rw [hrounds]
    simp only [State.message, consumed, hone, hnone]
    split
    · rfl
    · dsimp only
      omega

/-! ## Opening -/

/-- Before the first `fork` nobody has done anything yet. -/
theorem total_opening {f : Proc main → Pc → ℕ → ℕ}
    (hf : ∀ q c, c.inBody = false → f q c 0 = 0) (hrounds : ∀ q, st.rounds q = 0)
    (hpc : ∀ q, (st.pc q).inBody = false) : total f st = 0 := by
  apply tally_eq_zero_iff.mpr
  intro q
  rw [hrounds q]
  exact hf q _ (hpc q)

theorem outside_opening (hc : Control st.pc) {sd : Fin NOSEM} (hp : st.pc none = .semOpen sd)
    (q : Proc main) : (st.pc q).inBody = false := by
  cases q with
  | none => rw [hp]; rfl
  | some i =>
      have hmade := hc.made i
      rw [hp] at hmade
      rw [show st.pc (some i) = .embryo 0 from hmade]
      rfl

theorem units_outside {c : Pc} (hc : c.inBody = false) (p : Proc main) :
    (∀ sd, debit sd p c 0 = 0 ∧ credit sd p c 0 = 0) ∧ messages c 0 = 0 := by
  have hsame := sameUnits_of_outside (p := p) (d := c) (c := .loop) rfl hc 0
  refine ⟨fun sd => ?_, hsame.2⟩
  rw [(hsame.1 sd).1, (hsame.1 sd).2]
  fin_cases sd <;> simp [debit, credit, Pc.inside, Pc.inBody, Pc.gotWrite, Pc.putWrite]

theorem toInt_init {main : Main} (htotal : main.total < 2 ^ 31) (sd : Fin NOSEM) :
    (Int32.ofNat (main.init sd)).toInt = main.init sd ∧
      (Int32.ofNat (main.maxVal sd)).toInt = main.maxVal sd := by
  have hlt : main.total < 2147483648 := htotal
  constructor <;>
  · apply Int32.toInt_ofNat_of_lt
    fin_cases sd <;> simp [Main.init, Main.maxVal, MAX_MSG, hlt]

theorem Ledger.opens (h : Ledger st) (htotal : main.total < 2 ^ 31) (hd : Descr clean st)
    (hc : Control st.pc) {sd : Fin NOSEM} (hp : st.pc none = .semOpen sd)
    (hcreate : ∃ spot, semOpenScan st.table (semName sd) (List.finRange NSEM) none =
      .create (some spot)) : Ledger (st.semOpen none sd) := by
  obtain ⟨spot, hscan⟩ := hcreate
  have ho := hd.opening hp hscan
  have hrounds : ∀ q, st.rounds q = 0 := h.unmade sd hp
  have hpc := outside_opening hc hp
  have hpc' : ∀ q, ((st.semOpen none sd).pc q).inBody = false := by
    intro q
    show ((st.goto none (Proc.afterOpen sd)).pc q).inBody = false
    rw [State.goto_pc_apply]
    split
    · unfold Proc.afterOpen
      split <;> rfl
    · exact hpc q
  have hzero : ∀ {f : Proc main → Pc → ℕ → ℕ}, (∀ q c, c.inBody = false → f q c 0 = 0) →
      total f (st.semOpen none sd) = total f st := by
    intro f hf
    rw [total_opening hf hrounds hpc]
    exact total_opening hf hrounds hpc'
  have hwritten : (st.semOpen none sd).written = st.written ∧
      (st.semOpen none sd).taken = st.taken ∧ (st.semOpen none sd).rounds = st.rounds :=
    ⟨rfl, rfl, rfl⟩
  generalize st.semOpen none sd = st' at ho hzero hwritten ⊢
  refine ⟨?_, ?_, ?_, ?_, ?_, ?_⟩
  · intro x u hx
    rw [hzero fun q c hout => ((units_outside hout q).1 x).1,
      hzero fun q c hout => ((units_outside hout q).1 x).2]
    refine ho.field (P := fun x s => s.count.toInt + total (debit x) st = main.init x +
      total (credit x) st) ?_ (fun x u _ => h.balance x u) hx
    rw [Sem.opened_count, (toInt_init htotal sd).1,
      total_opening (fun q c hout => ((units_outside hout q).1 sd).1) hrounds hpc,
      total_opening (fun q c hout => ((units_outside hout q).1 sd).2) hrounds hpc]
  · intro x u hx
    refine ho.field (P := fun x s => s.maxVal.toInt = main.maxVal x) ?_
      (fun x u _ => h.maxVal x u) hx
    exact (toInt_init htotal sd).2
  · intro x u hx
    refine ho.field (P := fun _ s => 0 ≤ s.count.toInt) ?_ (fun x u _ => h.nonneg x u) hx
    rw [Sem.opened_count, (toInt_init htotal sd).1]
    omega
  · rw [hwritten.1, h.written]
    refine (hzero ?_).symm
    intro q c hout
    simp [produced, (units_outside hout q).2]
  · rw [hwritten.2.1, h.taken]
    refine (hzero ?_).symm
    intro q c hout
    simp [consumed, (units_outside hout q).2]
  · intro ds _ q
    rw [hwritten.2.2]
    exact hrounds q

/-! ## Every step -/

theorem holds_of_posts {sd : Fin NOSEM} {next : Pc} {j : ℕ} (ht : Posts st p sd next j) :
    holds p (st.pc p) sd = true := by
  rcases ht with ⟨hp, rfl, _⟩ | ⟨hp, rfl, _⟩
  · rw [hp]
    rfl
  · rw [hp, Proc.posts]
    split <;> rfl

theorem Ledger.sleep (h : Ledger st) (p : Proc main) (c : Chan main) : Ledger (st.sleep p c) :=
  ⟨h.balance, h.maxVal, h.nonneg, h.written, h.taken, h.unmade⟩

theorem step_ledger (htotal : main.total < 2 ^ 31) (h : Ledger st) (hd : Descr clean st)
    (hc : Control st.pc) (hok : Creates st a) (hs : Step st a st') : Ledger st' := by
  rcases opening_or_later hc hs with ⟨sd, rfl, hp, rfl⟩ | hn
  · exact h.opens htotal hd hc hp (hok none sd rfl hp)
  cases hs with
  | moved hm => exact h.moved hd hn hm
  | @opened p sd hp =>
      have hat := hc.stands p
      rw [hp] at hat
      cases p with
      | none => exact absurd hp (hn sd)
      | some i => exact absurd hat id
  | @copied p i s k hp hi hs =>
      exact h.quiet rfl hn (by simp) (hi ▸ sameUnits_of_outside rfl rfl) rfl rfl rfl rfl
        (fun u => STable.modify_field Sem.count _ _ u rfl)
        fun u => STable.modify_field Sem.maxVal _ _ u rfl
  | @copiedNone p i k hp hi hs =>
      exact h.quiet rfl hn (by simp) (hi ▸ sameUnits_of_outside rfl rfl) rfl rfl rfl rfl
        (fun _ => rfl) fun _ => rfl
  | @forked p i k hp hi hk =>
      have hne : p ≠ some i := by
        intro heq
        rw [heq, hi] at hp
        cases hp
      have hmade : Ledger (st.goto (some i) (.semClose waitcd)) :=
        h.quiet rfl hn (by simp) (hi ▸ sameUnits_of_outside rfl rfl) rfl rfl rfl rfl
          (fun _ => rfl) fun _ => rfl
      refine hmade.quiet rfl (by simpa [State.goto] using hn) (by simp) ?_ rfl rfl rfl rfl
        (fun _ => rfl) fun _ => rfl
      rw [State.goto_pc_of_ne _ hne, hp]
      exact sameUnits_of_outside rfl rfl
  | closed hcl hs =>
      exact h.quiet rfl hn (not_open_closes hcl)
        (sameUnits_of_outside (outside_closes hcl).1 (outside_closes hcl).2) rfl rfl rfl rfl
        (fun u => STable.modify_field Sem.count _ _ u rfl)
        fun u => STable.modify_field Sem.maxVal _ _ u rfl
  | @unlinked p sd s t hp hr =>
      exact h.quiet rfl hn (afterUnlink_ne_semOpen sd)
        (sameUnits_of_outside (outside_passes hp) (outside_afterUnlink p sd)) rfl rfl rfl rfl
        (fun u => (STable.modify_field Sem.count t s u rfl).trans (hp.units u).1)
        fun u => (STable.modify_field Sem.maxVal t s u rfl).trans (hp.units u).2
  | unlinkSleeps hp hr =>
      exact h.quiet rfl hn (by simp) (sameUnits_of_outside (outside_passes hp) rfl) rfl rfl rfl rfl
        (fun u => (hp.units u).1) fun u => (hp.units u).2
  | took ht hs hpos => exact h.takes hd hn ht hs hpos
  | waitSleeps => exact h.sleep _ _
  | messaged hp => exact h.message hn hp
  | posted ht hs hne => exact h.posts hd hn ht hs _
  | postRefused ht hfull =>
      -- there is room for every post
      obtain ⟨s, hs, hopen⟩ := hd.open_of_holds hn (holds_of_posts ht)
      have hroom := h.room hd hn ht hopen
      rw [hfull s hs] at hroom
      exact (Int32.lt_irrefl hroom).elim
  | childrenLeft => exact h.sleep _ _
  | @exited p k hp hk =>
      exact h.quiet rfl hn (by simp) (hp ▸ sameUnits_of_outside rfl rfl) rfl rfl rfl rfl
        (fun _ => rfl) fun _ => rfl
  | @reaped c i hp hi hc =>
      have hreap : Ledger (st.goto (some c) .reaped) :=
        h.quiet rfl hn (by simp) (hc ▸ sameUnits_of_outside rfl rfl) rfl rfl rfl rfl
          (fun _ => rfl) fun _ => rfl
      refine hreap.quiet rfl (by simpa [State.goto] using hn) (by simp) ?_ rfl rfl rfl rfl
        (fun _ => rfl) fun _ => rfl
      rw [State.goto_pc_of_ne _ (by simp), hp]
      exact sameUnits_of_outside rfl rfl

theorem ledger_start (main : Main) (table : STable) : Ledger (start main table) where
  balance sd s h := by cases h
  maxVal sd s h := by cases h
  nonneg sd s h := by cases h
  written := by
    refine (total_opening (fun q c hout => ?_) (fun _ => rfl) fun q => ?_).symm
    · simp [produced, (units_outside hout q).2]
    · cases q <;> rfl
  taken := by
    refine (total_opening (fun q c hout => ?_) (fun _ => rfl) fun q => ?_).symm
    · simp [consumed, (units_outside hout q).2]
    · cases q <;> rfl
  unmade _ _ _ := rfl

/-- The three invariants together. -/
structure Inv (clean : Prop) (st : State main) : Prop where
  control : Control st.pc
  descr : Descr clean st
  ledger : Ledger st

theorem inv_of_reachable {table : STable} (htotal : main.total < 2 ^ 31)
    (href : clean → ∀ s, 0 ≤ (table s).ref) (h : Reachable step Creates (start main table) st) :
    Inv clean st := by
  apply h.invariant
  · exact ⟨control_start main table, descr_start main href, ledger_start main table⟩
  · intro st a st' hi hok hs
    have hstep := step_cases hs
    exact ⟨step_control hi.control hstep, step_descr hi.descr hi.control hok hstep,
      step_ledger htotal hi.ledger hi.descr hi.control hok hstep⟩

/-! ## Safety -/

/-- `p` is between `sem_wait(write)` and `sem_post(write)`. -/
def HasWrite (st : State main) (p : Proc main) : Prop := (st.pc p).inWrite = true

/-- The next `sem_post` of every process returns 0. -/
def PostsSucceed (st : State main) : Prop :=
  ∀ p sd next j, Posts st p sd next j →
    ∃ s, st.osem p sd = some s ∧ (semPost (st.table s)).2.1 = 0

theorem Ledger.excludes (h : Ledger st) (hd : Descr clean st) (hc : Control st.pc)
    {p q : Proc main} (hp : HasWrite st p) (hq : HasWrite st q) : p = q := by
  by_contra hne
  have hn : ∀ ds, st.pc none ≠ .semOpen ds := by
    intro ds hds
    have hout := outside_opening hc hds p
    unfold HasWrite at hp
    cases hpc : st.pc p with
    | body ph => simp [hpc, Pc.inBody] at hout
    | _ => simp [hpc, Pc.inWrite] at hp
  obtain ⟨w, hw⟩ := hd.isOpen write fun ds hds => absurd hds (hn ds)
  have hm := h.mutex hw
  have hnonneg := h.nonneg write w hw
  have htwo := add_le_tally (fun r => writing r (st.pc r) (st.rounds r)) hne
  have hsum : (tally fun r => writing r (st.pc r) (st.rounds r)) = total writing st := rfl
  simp only [writing] at htwo
  rw [hp, hq] at htwo
  simp only [writing] at hsum
  simp at htwo
  omega

/-- The messages in the buffer. -/
theorem Ledger.buffered (h : Ledger st) (hd : Descr clean st) (hc : Control st.pc) :
    st.taken ≤ st.written ∧ st.written ≤ st.taken + MAX_MSG := by
  by_cases hopening : ∃ ds, st.pc none = .semOpen ds
  · obtain ⟨ds, hds⟩ := hopening
    have hzero : st.written = 0 ∧ st.taken = 0 := by
      rw [h.written, h.taken]
      constructor <;>
      · apply total_opening _ (h.unmade ds hds) (outside_opening hc hds)
        intro q c hout
        simp [produced, consumed, (units_outside hout q).2]
    omega
  · have hn : ∀ ds, st.pc none ≠ .semOpen ds := fun ds hds => hopening ⟨ds, hds⟩
    obtain ⟨a, ha⟩ := hd.isOpen buffa fun ds hds => absurd hds (hn ds)
    obtain ⟨b, hb⟩ := hd.isOpen buffb fun ds hds => absurd hds (hn ds)
    have hba := h.balance buffa a ha
    have hbb := h.balance buffb b hb
    have hna := h.nonneg buffa a ha
    have hnb := h.nonneg buffb b hb
    have hinit : main.init buffa = MAX_MSG ∧ main.init buffb = 0 := ⟨rfl, rfl⟩
    -- a message lies between the two waits and posts of its process
    have hwrote : ∀ {c : Pc} (j : ℕ), j ≤ messages c j ∧ messages c j ≤ j + c.inside.toNat := by
      intro c j
      cases c with
      | body ph => cases ph <;> simp [messages, Pc.wrote, Pc.inside]
      | _ => simp [messages, Pc.wrote]
    have hp1 : total produced st ≤ total (debit buffa) st := by
      apply tally_le
      intro q
      simp only [produced, debit]
      split
      · exact (hwrote _).2
      · omega
    have hp2 : total (credit buffb) st ≤ total produced st := by
      apply tally_le
      intro q
      simp only [produced, credit]
      split
      · exact (hwrote _).1
      · omega
    have hc1 : total consumed st ≤ total (debit buffb) st := by
      apply tally_le
      intro q
      simp only [consumed, debit]
      split
      · omega
      · exact (hwrote _).2
    have hc2 : total (credit buffa) st ≤ total consumed st := by
      apply tally_le
      intro q
      simp only [consumed, credit]
      split
      · omega
      · exact (hwrote _).1
    have hw := h.written
    have ht := h.taken
    omega

theorem Ledger.postsSucceed (h : Ledger st) (hd : Descr clean st) (hc : Control st.pc) :
    PostsSucceed st := by
  intro p sd next j hp
  have hn : ∀ ds, st.pc none ≠ .semOpen ds := by
    rcases hp with ⟨hpc, _⟩ | ⟨hpc, _⟩ <;>
      exact hc.not_opening (p := p) (by simp [hpc, Pc.Born]) (by simp [hpc])
  obtain ⟨s, hs, hopen⟩ := hd.open_of_holds hn (holds_of_posts hp)
  have hne : (st.table s).count ≠ (st.table s).maxVal := by
    intro heq
    have hroom := h.room hd hn hp hopen
    rw [heq] at hroom
    exact Int32.lt_irrefl hroom
  exact ⟨s, hs, by simp [semPost, hne]⟩

/-- In every reachable state at most one process has `write`, the buffer holds at most
`MAX_MSG` messages and at least none, no `sem_post` is refused, and the buffer semaphores
account for the rest of the buffer. -/
theorem safe_of_reachable (main : Main) (table : STable) (htotal : main.total < 2 ^ 31)
    (st : State main) (h : Reachable step Creates (start main table) st) :
    (∀ p q, HasWrite st p → HasWrite st q → p = q) ∧
      (st.taken ≤ st.written ∧ st.written ≤ st.taken + MAX_MSG) ∧
      PostsSucceed st ∧
      ∀ a b, st.opened buffa = some a → st.opened buffb = some b →
        (st.table a).count.toInt + (st.table b).count.toInt + total producing st +
          total consuming st = MAX_MSG := by
  obtain ⟨hc, hd, hl⟩ : Inv False st := inv_of_reachable htotal False.elim h
  exact ⟨fun p q => hl.excludes hd hc, hl.buffered hd hc, hl.postsSucceed hd hc,
    fun a b ha hb => hl.buffers ha hb⟩

theorem allFree_zero : AllFree STable.zero := fun _ => ⟨rfl, rfl⟩

/-- One producer and one consumer, up to the message of the producer: twenty-five steps of the
three processes. -/
def firstMessage : List (Act ⟨1, 1, 1, 1⟩) :=
  List.replicate 19 (.run none) ++
    [.run (some ⟨0, by decide⟩), .run none, .run (some ⟨1, by decide⟩)] ++
    List.replicate 5 (.run (some ⟨0, by decide⟩))

theorem safe_of_reachable_firstMessage : ∃ st : State ⟨1, 1, 1, 1⟩,
    HasWrite st (some ⟨0, by decide⟩) ∧
      (∀ p q, HasWrite st p → HasWrite st q → p = q) ∧
        (st.taken ≤ st.written ∧ st.written ≤ st.taken + MAX_MSG) ∧
        PostsSucceed st ∧
        ∀ a b, st.opened buffa = some a → st.opened buffb = some b →
          (st.table a).count.toInt + (st.table b).count.toInt + total producing st +
            total consuming st = MAX_MSG := by
  have hrun : (run step (start ⟨1, 1, 1, 1⟩ STable.zero) firstMessage).map
      (fun st => st.pc (some ⟨0, by decide⟩)) = some (.body .message) := by decide +kernel
  obtain ⟨st, hst, hpc⟩ := Option.map_eq_some_iff.mp hrun
  have hreach := (tidy_of_reachable allFree_zero (reachable_of_run hst)).1
  refine ⟨st, ?_, safe_of_reachable ⟨1, 1, 1, 1⟩ STable.zero (by decide) st hreach⟩
  simp [HasWrite, hpc, Pc.inWrite]

end OsSolutions.ProdCons
