import OsSolutions.Verification.ProdCons.Control
import OsSolutions.Verification.Sem.Naming

/-! # Who holds which semaphore

The control point of a process tells which of the five descriptors it has open, and the
references of a semaphore are counted by the processes that have it open. -/

namespace OsSolutions.ProdCons

open Transition

variable {main : Main}

/-- Every `sem_open` of `main` makes a new semaphore. -/
def Creates (st : State main) (a : Act main) : Prop :=
  ∀ p sd, a = .run p → st.pc p = .semOpen sd →
    ∃ spot, semOpenScan st.table (semName sd) (List.finRange NSEM) none = .create (some spot)

/-- Whether a process at the control point has descriptor `sd` open. -/
def holds (p : Proc main) (c : Pc) (sd : Fin NOSEM) : Bool :=
  match c with
  | .semOpen sd' => sd < sd'
  | .fork _ => true
  | .embryo k => sd.val < k
  | .semClose sd' => sd' ≤ sd
  | .semUnlink sd' | .unlinking sd' _ | .unlinkLoop sd' _ => sd' < sd
  | .loop | .body _ | .wait _ => waitcd < sd
  | .exit k => p ≠ none ∧ waitcd < sd ∧ k ≤ sd.val
  | .exited | .reaped => false

/-- The number of processes that have `sd` open. -/
def holders (pc : Proc main → Pc) (sd : Fin NOSEM) : ℕ :=
  tally fun p => if holds p (pc p) sd then 1 else 0

/-- With `clean` the references of the first table are known not to be negative. -/
structure Descr (clean : Prop) (st : State main) : Prop where
  osem : ∀ p sd, st.osem p sd = if holds p (st.pc p) sd then st.opened sd else none
  isOpen : ∀ sd, (∀ ds, st.pc none = .semOpen ds → sd < ds) → ∃ s, st.opened sd = some s
  notYet : ∀ sd ds, st.pc none = .semOpen ds → ds ≤ sd → st.opened sd = none
  injective : ∀ sd sd' s, st.opened sd = some s → st.opened sd' = some s → sd = sd'
  carries : ∀ sd s, st.opened sd = some s → (st.table s).Carries (semName sd)
  linked : ∀ sd s ds, st.pc none = .semOpen ds → st.opened sd = some s →
    (st.table s).linked = true
  ref : ∀ sd s, st.opened sd = some s → (st.table s).ref = holders st.pc sd
  nonneg : clean → ∀ s, 0 ≤ (st.table s).ref
  only : clean → ∀ sd s, st.opened sd = some s → ∀ u, (st.table u).matches (semName sd) →
    u = s ∨ (st.table u).ref = 0

variable {clean : Prop} {st st' : State main} {a : Act main} {p : Proc main} {pc : Proc main → Pc}

theorem semName_length (sd : Fin NOSEM) : (semName sd).length = 5 := by
  revert sd
  decide

theorem semName_injective {sd sd' : Fin NOSEM} (h : semName sd = semName sd') : sd = sd' := by
  revert h
  revert sd sd'
  decide

/-- Once some process but the opening parent can run, the opens are over. -/
theorem Control.not_opening (h : Control pc) (hborn : (pc p).Born)
    (hp : ∀ ds, pc p ≠ .semOpen ds) (ds : Fin NOSEM) : pc none ≠ .semOpen ds := by
  intro hn
  cases p with
  | none => exact hp ds hn
  | some i =>
      have hmade := h.made i
      rw [hn] at hmade
      exact hborn 0 hmade

theorem Descr.open_of_holds (h : Descr clean st) {sd : Fin NOSEM}
    (hn : ∀ ds, st.pc none ≠ .semOpen ds) (hh : holds p (st.pc p) sd = true) :
    ∃ s, st.osem p sd = some s ∧ st.opened sd = some s := by
  obtain ⟨s, hs⟩ := h.isOpen sd fun ds hds => absurd hds (hn ds)
  exact ⟨s, by rw [h.osem, hh, hs]; rfl, hs⟩

theorem Descr.opened_of_osem (h : Descr clean st) {sd : Fin NOSEM} {s : Fin NSEM}
    (hs : st.osem p sd = some s) : st.opened sd = some s ∧ holds p (st.pc p) sd = true := by
  rw [h.osem] at hs
  split at hs
  · rename_i hh
    exact ⟨hs, hh⟩
  · cases hs

theorem Descr.matches_iff (h : Descr clean st) {sd sd' : Fin NOSEM} {s : Fin NSEM}
    (hs : st.opened sd = some s) : (st.table s).matches (semName sd') ↔ sd = sd' := by
  have hlen : (semName sd).length < SEMNAME := by
    rw [semName_length]
    decide
  rw [(h.carries sd s hs).matches_iff hlen]
  exact ⟨fun heq => semName_injective heq, fun heq => heq ▸ rfl⟩

/-! ## Counting holders -/

theorem holders_update (pc : Proc main → Pc) (p : Proc main) (c : Pc) (sd : Fin NOSEM) :
    holders (Function.update pc p c) sd + (if holds p (pc p) sd then 1 else 0) =
      holders pc sd + if holds p c sd then 1 else 0 := by
  have hoff := tally_of_eq_off (f := fun q => if holds q (pc q) sd then 1 else 0)
    (g := fun q => if holds q (Function.update pc p c q) sd then 1 else 0) p (by
      intro q hq
      simp [hq])
  simpa [holders] using hoff

theorem holders_pos {sd : Fin NOSEM} (h : holds p (pc p) sd = true) : 0 < holders pc sd := by
  have hle := le_tally (fun q => if holds q (pc q) sd then 1 else 0) p
  simp only [h, if_true] at hle
  exact hle

theorem holds_update {c : Pc} {f : Proc main → Pc} (h : ∀ sd, holds p c sd = holds p (f p) sd)
    (q : Proc main) (sd : Fin NOSEM) : holds q (Function.update f p c q) sd = holds q (f q) sd := by
  by_cases hq : q = p
  · subst hq
    simpa using h sd
  · simp [hq]

/-! ## Steps after the opens -/

/-- Descriptors follow the control points, references follow the holders, and slots keep
their names. -/
theorem Descr.update (h : Descr clean st) (hn : ∀ ds, st.pc none ≠ .semOpen ds)
    (hn' : ∀ ds, st'.pc none ≠ .semOpen ds) (hopened : st'.opened = st.opened)
    (hosem : ∀ q sd, st'.osem q sd = if holds q (st'.pc q) sd then st.opened sd else none)
    (hbytes : ∀ s, (st'.table s).bytes = (st.table s).bytes)
    (href : ∀ sd s, st.opened sd = some s → (st'.table s).ref = holders st'.pc sd)
    (hforeign : ∀ u, (∀ sd, st.opened sd ≠ some u) → (st'.table u).ref = (st.table u).ref) :
    Descr clean st' where
  osem q sd := by rw [hosem, hopened]
  isOpen sd _ := by
    rw [hopened]
    exact h.isOpen sd fun ds hds => absurd hds (hn ds)
  notYet sd ds hds := absurd hds (hn' ds)
  injective := by
    rw [hopened]
    exact h.injective
  carries sd s hs i hi := by
    rw [hbytes]
    exact h.carries sd s (hopened ▸ hs) i hi
  linked sd s ds hds := absurd hds (hn' ds)
  ref sd s hs := href sd s (hopened ▸ hs)
  nonneg hcl u := by
    by_cases hu : ∃ sd, st.opened sd = some u
    · obtain ⟨sd, hsd⟩ := hu
      rw [href sd u hsd]
      omega
    · rw [hforeign u fun sd hsd => hu ⟨sd, hsd⟩]
      exact h.nonneg hcl u
  only hcl sd s hs u hu := by
    rw [hopened] at hs
    have hmatch : (st.table u).matches (semName sd) := by
      simpa only [Sem.matches, hbytes] using hu
    by_cases hopen : ∃ sd', st.opened sd' = some u
    · obtain ⟨sd', hsd'⟩ := hopen
      obtain rfl := (h.matches_iff hsd').mp hmatch
      exact .inl (Option.some.inj (hsd'.symm.trans hs))
    · rw [hforeign u fun sd' hsd' => hopen ⟨sd', hsd'⟩]
      exact h.only hcl sd s hs u hmatch

/-- The opens are not taken up again. -/
theorem not_open_update {pc : Proc main → Pc} {c : Pc} (hn : ∀ ds, pc none ≠ .semOpen ds)
    (hc : ∀ ds, c ≠ .semOpen ds) (ds : Fin NOSEM) :
    Function.update pc p c none ≠ .semOpen ds := by
  by_cases hp : none = p
  · subst hp
    rw [Function.update_self]
    exact hc ds
  · rw [Function.update_of_ne hp]
    exact hn ds

/-- Nobody opens or closes, and slots change neither name nor references. -/
theorem Descr.congr (h : Descr clean st) (hn : ∀ ds, st.pc none ≠ .semOpen ds)
    (hn' : ∀ ds, st'.pc none ≠ .semOpen ds) (hopened : st'.opened = st.opened)
    (hosem : st'.osem = st.osem)
    (hpc : ∀ q sd, holds q (st'.pc q) sd = holds q (st.pc q) sd)
    (hbytes : ∀ s, (st'.table s).bytes = (st.table s).bytes)
    (href : ∀ s, (st'.table s).ref = (st.table s).ref) : Descr clean st' := by
  apply h.update hn hn' hopened _ hbytes
  · intro sd s hs
    rw [href, h.ref sd s hs]
    simp only [holders, hpc]
  · exact fun u _ => href u
  · intro q sd
    rw [hosem, hpc, h.osem]

/-- `p` moves between control points with the same descriptors, and the table changes at
most in counts and flags. -/
theorem Descr.move (h : Descr clean st) {c : Pc} (hpc : st'.pc = Function.update st.pc p c)
    (hn : ∀ ds, st.pc none ≠ .semOpen ds) (hn' : ∀ ds, c ≠ .semOpen ds)
    (hsame : ∀ sd, holds p c sd = holds p (st.pc p) sd) (hopened : st'.opened = st.opened)
    (hosem : st'.osem = st.osem) (hbytes : ∀ s, (st'.table s).bytes = (st.table s).bytes)
    (href : ∀ s, (st'.table s).ref = (st.table s).ref) : Descr clean st' := by
  refine h.congr hn ?_ hopened hosem ?_ hbytes href
  · rw [hpc]
    exact not_open_update hn hn'
  · rw [hpc]
    exact holds_update hsame

/-! ## Closing and copying -/

theorem holds_closes {sd : Fin NOSEM} {next : Pc} (hc : Closes st p sd next) (x : Fin NOSEM) :
    holds p next x = (holds p (st.pc p) x && decide (x ≠ sd)) := by
  rcases hc with ⟨hp, rfl⟩ | ⟨hp, rfl⟩
  · rw [hp]
    unfold Proc.afterClose
    split
    · rename_i h0
      rw [h0.2]
      simp only [holds]
      revert x
      decide
    · simp only [holds]
      grind
  · rw [hp]
    simp only [holds, ne_eq, Fin.ext_iff]
    grind

theorem not_open_closes {sd : Fin NOSEM} {next : Pc} (hc : Closes st p sd next) (ds : Fin NOSEM) :
    next ≠ .semOpen ds := by
  rcases hc with ⟨_, rfl⟩ | ⟨_, rfl⟩
  · unfold Proc.afterClose
    split <;> simp
  · simp

theorem Descr.closes (h : Descr clean st) {sd : Fin NOSEM} {next : Pc} {s : Fin NSEM}
    (hn : ∀ ds, st.pc none ≠ .semOpen ds) (hc : Closes st p sd next)
    (hs : st.osem p sd = some s) :
    Descr clean ((((st.withTable (semClose st.table s).1).setOsem p sd none).wakeIf
      (semClose st.table s).2 .stable).goto p next) := by
  obtain ⟨hopen, hheld⟩ := h.opened_of_osem hs
  apply h.update hn
  · exact not_open_update hn (not_open_closes hc)
  · rfl
  · intro q x
    rw [show ((((st.withTable (semClose st.table s).1).setOsem p sd none).wakeIf
      (semClose st.table s).2 .stable).goto p next).osem q x = (st.setOsem p sd none).osem q x
        from rfl, State.setOsem_apply]
    by_cases hq : q = p
    · subst hq
      by_cases hx : x = sd
      · subst hx
        simp [holds_closes hc]
      · simp [holds_closes hc, hx, h.osem q x]
    · simp only [State.goto_pc_of_ne next hq, hq, false_and, if_false]
      exact h.osem q x
  · exact fun u => STable.modify_field Sem.bytes st.table s u rfl
  · intro x u hu
    have hcount := holders_update st.pc p next x
    rw [holds_closes hc] at hcount
    show ((semClose st.table s).1 u).ref = holders (Function.update st.pc p next) x
    rw [semClose_ref, h.ref x u hu]
    by_cases hx : x = sd
    · subst hx
      obtain rfl : s = u := Option.some.inj (hopen.symm.trans hu)
      simp [hheld] at hcount ⊢
      omega
    · have hne : s ≠ u := by
        intro heq
        subst heq
        exact hx (h.injective x sd s hu hopen)
      simp [hx, hne] at hcount ⊢
      omega
  · intro u hu
    show ((semClose st.table s).1 u).ref = (st.table u).ref
    have hne : s ≠ u := by
      intro heq
      subst heq
      exact hu sd hopen
    simp [semClose_ref, hne]

theorem Descr.copies (h : Descr clean st) {i : Fin main.children} {k : Fin NOSEM} {s : Fin NSEM}
    (hn : ∀ ds, st.pc none ≠ .semOpen ds) (hi : st.pc (some i) = .embryo k.val)
    (hs : st.osem p k = some s) :
    Descr clean (((st.withTable (semdup st.table s)).setOsem (some i) k (some s)).goto (some i)
      (.embryo (k.val + 1))) := by
  obtain ⟨hopen, _⟩ := h.opened_of_osem hs
  have hnext : ∀ x, holds (some i) (.embryo (k.val + 1)) x =
      (holds (some i) (st.pc (some i)) x || decide (x = k)) := by
    intro x
    rw [hi]
    simp only [holds, Fin.ext_iff]
    grind
  have hnot : holds (some i) (st.pc (some i)) k = false := by simp [hi, holds]
  apply h.update hn
  · exact fun ds => hn ds
  · rfl
  · intro q x
    rw [show (((st.withTable (semdup st.table s)).setOsem (some i) k (some s)).goto (some i)
      (.embryo (k.val + 1))).osem q x = (st.setOsem (some i) k (some s)).osem q x from rfl,
      State.setOsem_apply]
    by_cases hq : q = some i
    · subst hq
      by_cases hx : x = k
      · subst hx
        simp [hnext, hopen]
      · simp [hnext, hx, h.osem (some i) x]
    · simp only [State.goto_pc_of_ne _ hq, hq, false_and, if_false]
      exact h.osem q x
  · exact fun u => STable.modify_field Sem.bytes st.table s u rfl
  · intro x u hu
    have hcount := holders_update st.pc (some i) (.embryo (k.val + 1)) x
    rw [hnext] at hcount
    show (semdup st.table s u).ref = holders (Function.update st.pc (some i) _) x
    rw [semdup_ref, h.ref x u hu]
    by_cases hx : x = k
    · subst hx
      obtain rfl : s = u := Option.some.inj (hopen.symm.trans hu)
      simp [hnot] at hcount ⊢
      omega
    · have hne : s ≠ u := by
        intro heq
        subst heq
        exact hx (h.injective x k s hu hopen)
      simp [hx, hne] at hcount ⊢
      omega
  · intro u hu
    show (semdup st.table s u).ref = (st.table u).ref
    have hne : s ≠ u := by
      intro heq
      subst heq
      exact hu k hopen
    simp [semdup_ref, hne]

/-! ## Opening -/

theorem holds_afterOpen (sd x : Fin NOSEM) :
    holds (none : Proc main) (Proc.afterOpen sd) x = decide (x ≤ sd) := by
  unfold Proc.afterOpen
  split
  · simp only [holds, Fin.lt_def, Fin.le_def]
    grind
  · simp only [holds, Fin.le_def]
    grind

/-- Nothing is open but what the parent has opened so far. -/
theorem holders_opening (hc : Control pc) {sd : Fin NOSEM} (hp : pc none = .semOpen sd)
    {x : Fin NOSEM} (hx : sd ≤ x) : holders pc x = 0 := by
  apply tally_eq_zero_iff.mpr
  intro q
  cases q with
  | none => simp [hp, holds, Fin.not_lt.mpr hx]
  | some i =>
      have hmade := hc.made i
      rw [hp] at hmade
      have hi : pc (some i) = .embryo 0 := hmade
      simp [hi, holds]

theorem afterOpen_eq_semOpen {sd ds : Fin NOSEM} (h : Proc.afterOpen sd = .semOpen ds) :
    ds.val = sd.val + 1 := by
  unfold Proc.afterOpen at h
  split at h
  · cases h
    rfl
  · cases h

theorem last_of_afterOpen {sd : Fin NOSEM} (h : ∀ ds, Proc.afterOpen sd ≠ .semOpen ds)
    (x : Fin NOSEM) : x ≤ sd := by
  unfold Proc.afterOpen at h
  split at h
  · exact absurd rfl (h _)
  · rw [Fin.le_def]
    omega

/-- `main` has opened `sd` in the free slot `spot`. -/
structure Opening (st st' : State main) (sd : Fin NOSEM) (spot : Fin NSEM) : Prop where
  pc : st'.pc = Function.update st.pc none (Proc.afterOpen sd)
  table : st'.table = semOpenInit st.table spot (semName sd) (Int32.ofNat (main.init sd))
    (Int32.ofNat (main.maxVal sd)) main.pid
  opened : st'.opened = Function.update st.opened sd (some spot)
  osem : st'.osem = (st.setOsem none sd (some spot)).osem
  fresh : ∀ x, st.opened x ≠ some spot
  unnamed : ∀ u, ¬ (0 < (st.table u).ref ∧ (st.table u).matches (semName sd))

/-- The slots opened before are linked, so the new one is none of them. -/
theorem Descr.opening (h : Descr clean st) {sd : Fin NOSEM} (hp : st.pc none = .semOpen sd)
    {spot : Fin NSEM}
    (hscan : semOpenScan st.table (semName sd) (List.finRange NSEM) none = .create (some spot)) :
    Opening st (st.semOpen none sd) sd spot := by
  refine ⟨rfl, ?_, ?_, ?_, ?_, ?_⟩
  · simp [State.semOpen, OsSolutions.semOpen, hscan, State.setOsem, State.goto, State.withTable]
  · simp [State.semOpen, OsSolutions.semOpen, hscan, State.setOsem, State.goto, State.withTable]
  · simp [State.semOpen, OsSolutions.semOpen, hscan, State.setOsem, State.goto, State.withTable]
  all_goals
    rcases semOpenScan_cases st.table (semName sd) with
      ⟨u, hu, _⟩ | ⟨u, hu, hfree, _, hno⟩ | ⟨hu, _⟩
    all_goals
      rw [hu] at hscan
      cases hscan
  · intro x hx
    have hl := h.linked x spot sd hp hx
    rw [hfree] at hl
    cases hl
  · exact hno

section Opening

variable {sd x : Fin NOSEM} {spot u : Fin NSEM}

theorem Opening.table_self (ho : Opening st st' sd spot) :
    st'.table spot = (st.table spot).opened (semName sd) (Int32.ofNat (main.init sd))
      (Int32.ofNat (main.maxVal sd)) main.pid := by
  rw [ho.table]
  exact STable.modify_self _ _ _

theorem Opening.table_of_ne (ho : Opening st st' sd spot) (hu : u ≠ spot) :
    st'.table u = st.table u := by
  rw [ho.table]
  exact STable.modify_of_ne _ _ hu

/-- An open semaphore is the new one, or it was open before and is as it was. -/
theorem Opening.cases (ho : Opening st st' sd spot) (hx : st'.opened x = some u) :
    (x = sd ∧ u = spot) ∨ (x ≠ sd ∧ st.opened x = some u ∧ u ≠ spot) := by
  rw [ho.opened] at hx
  by_cases hxs : x = sd
  · subst hxs
    rw [Function.update_self] at hx
    exact .inl ⟨rfl, (Option.some.inj hx).symm⟩
  · rw [Function.update_of_ne hxs] at hx
    exact .inr ⟨hxs, hx, fun hu => ho.fresh x (hu ▸ hx)⟩

/-- A property of an open semaphore, from the new semaphore and from the ones before. -/
theorem Opening.field (ho : Opening st st' sd spot) {P : Fin NOSEM → Sem → Prop}
    (hnew : P sd ((st.table spot).opened (semName sd) (Int32.ofNat (main.init sd))
      (Int32.ofNat (main.maxVal sd)) main.pid))
    (hold : ∀ x u, x ≠ sd → st.opened x = some u → P x (st.table u))
    (hx : st'.opened x = some u) : P x (st'.table u) := by
  rcases ho.cases hx with ⟨rfl, rfl⟩ | ⟨hne, hxo, hus⟩
  · rw [ho.table_self]
    exact hnew
  · rw [ho.table_of_ne hus]
    exact hold x u hne hxo

variable (h : Descr clean st) (hc : Control st.pc) (hp : st.pc none = .semOpen sd)
  (ho : Opening st st' sd spot)
include h hc hp ho

/-- The children do not exist yet, and the parent has what it had, and `sd`. -/
theorem Descr.opens_osem (q : Proc main) (x : Fin NOSEM) :
    st'.osem q x = if holds q (st'.pc q) x then st'.opened x else none := by
  rw [ho.osem, State.setOsem_apply, ho.pc, ho.opened]
  cases q with
  | none =>
      simp only [Function.update_self, holds_afterOpen, true_and, Function.update_apply]
      by_cases hx : x = sd
      · simp [hx]
      · have hosem := h.osem none x
        simp only [hp, holds] at hosem
        simp only [hx, if_false, hosem, decide_eq_true_eq]
        grind
  | some i =>
      have hmade := hc.made i
      rw [hp] at hmade
      have hi : st.pc (some i) = .embryo 0 := hmade
      have hosem := h.osem (some i) x
      simp [hi, holds] at hosem
      simp [hosem, hi, holds]

/-- One process, the parent, has the new semaphore open; the others are open as before. -/
theorem Descr.opens_ref (hx : st'.opened x = some u) :
    (st'.table u).ref = holders st'.pc x := by
  have hcount := holders_update st.pc none (Proc.afterOpen sd) x
  have hold : holds (none : Proc main) (.semOpen sd) x = decide (x < sd) := rfl
  rw [hp, hold, holds_afterOpen] at hcount
  rw [ho.pc]
  rcases ho.cases hx with ⟨rfl, rfl⟩ | ⟨hne, hxo, hus⟩
  · rw [ho.table_self, Sem.opened_ref]
    rw [holders_opening hc hp le_rfl] at hcount
    simp at hcount
    omega
  · rw [ho.table_of_ne hus, h.ref x u hxo]
    have hiff : decide (x < sd) = decide (x ≤ sd) := by
      rw [decide_eq_decide]
      exact ⟨le_of_lt, fun hle => lt_of_le_of_ne hle hne⟩
    rw [hiff] at hcount
    omega

omit hc

theorem Descr.opens_isOpen (x : Fin NOSEM) (hx : ∀ ds, st'.pc none = .semOpen ds → x < ds) :
    ∃ s, st'.opened x = some s := by
  rw [ho.opened]
  rw [ho.pc, Function.update_self] at hx
  by_cases hxs : x = sd
  · exact ⟨spot, by simp [hxs]⟩
  · rw [Function.update_of_ne hxs]
    have hle : x ≤ sd := by
      by_cases hlast : ∃ ds, Proc.afterOpen sd = .semOpen ds
      · obtain ⟨ds, hds⟩ := hlast
        have hlt := hx ds hds
        have hval := afterOpen_eq_semOpen hds
        rw [Fin.lt_def] at hlt
        rw [Fin.le_def]
        omega
      · exact last_of_afterOpen (fun ds hds => hlast ⟨ds, hds⟩) x
    apply h.isOpen x
    intro ds hds
    rw [hp] at hds
    cases hds
    exact lt_of_le_of_ne hle hxs

theorem Descr.opens_notYet (x ds : Fin NOSEM) (hds : st'.pc none = .semOpen ds) (hx : ds ≤ x) :
    st'.opened x = none := by
  rw [ho.pc, Function.update_self] at hds
  have hval := afterOpen_eq_semOpen hds
  rw [Fin.le_def] at hx
  have hlt : sd < x := by
    rw [Fin.lt_def]
    omega
  rw [ho.opened, Function.update_of_ne (ne_of_gt hlt)]
  exact h.notYet x sd hp (le_of_lt hlt)

omit hp

/-- The names are different, and no slot in use had the new name. -/
theorem Descr.opens_only (hcl : clean) (hx : st'.opened x = some u) {v : Fin NSEM}
    (hv : (st'.table v).matches (semName x)) : v = u ∨ (st'.table v).ref = 0 := by
  by_cases hvs : v = spot
  · subst hvs
    have hopenself := Sem.opened_matches_iff (st.table v) (Int32.ofNat (main.init sd))
      (Int32.ofNat (main.maxVal sd)) main.pid (semName sd) (semName x)
    rw [ho.table_self, hopenself] at hv
    have hlen : (semName sd).length < 8 := by
      rw [semName_length]
      decide
    simp only [Sem.AnswersTo, hlen, if_true] at hv
    obtain rfl := semName_injective hv
    rw [ho.opened, Function.update_self] at hx
    exact .inl (Option.some.inj hx)
  · rw [ho.table_of_ne hvs] at hv ⊢
    rcases ho.cases hx with ⟨rfl, rfl⟩ | ⟨_, hxo, _⟩
    · have hnot : ¬ 0 < (st.table v).ref := fun hpos => ho.unnamed v ⟨hpos, hv⟩
      have hnonneg := h.nonneg hcl v
      exact .inr (by omega)
    · exact h.only hcl x u hxo v hv

end Opening

theorem Descr.opens (h : Descr clean st) (hc : Control st.pc) {sd : Fin NOSEM}
    (hp : st.pc none = .semOpen sd)
    (hcreate : ∃ spot, semOpenScan st.table (semName sd) (List.finRange NSEM) none =
      .create (some spot)) : Descr clean (st.semOpen none sd) := by
  obtain ⟨spot, hscan⟩ := hcreate
  have ho := h.opening hp hscan
  refine ⟨h.opens_osem hc hp ho, h.opens_isOpen hp ho, h.opens_notYet hp ho, ?_, ?_, ?_,
    fun x u => h.opens_ref hc hp ho, ?_, fun hcl x u hx v => h.opens_only ho hcl hx⟩
  · intro x x' u hx hx'
    rcases ho.cases hx with ⟨rfl, rfl⟩ | ⟨_, hxo, hus⟩
    · rcases ho.cases hx' with ⟨rfl, _⟩ | ⟨_, _, hne⟩
      · rfl
      · exact absurd rfl hne
    · rcases ho.cases hx' with ⟨_, rfl⟩ | ⟨_, hxo', _⟩
      · exact absurd rfl hus
      · exact h.injective x x' u hxo hxo'
  · intro x u
    apply ho.field (P := fun x s => s.Carries (semName x))
    · apply Sem.opened_carries
      rw [semName_length]
      decide
    · exact fun x u _ => h.carries x u
  · intro x u ds _
    apply ho.field (P := fun _ s => s.linked = true) rfl
    exact fun x u _ => h.linked x u sd hp
  · intro hcl u
    by_cases hu : u = spot
    · subst hu
      rw [ho.table_self, Sem.opened_ref]
      decide
    · rw [ho.table_of_ne hu]
      exact h.nonneg hcl u

/-! ## Every step -/

theorem holds_afterUnlink {sd : Fin NOSEM} (hat : StandsAt p (.semUnlink sd)) (x : Fin NOSEM) :
    holds p (p.afterUnlink sd) x = decide (sd < x) := by
  cases p with
  | none =>
      simp only [Proc.afterUnlink, if_true]
      split
      · simp only [holds, Fin.lt_def, Fin.le_def]
        grind
      · simp only [holds, Fin.lt_def]
        grind
  | some i =>
      have hsd : sd = waitcd := hat
      simp [Proc.afterUnlink, holds, hsd]

theorem afterUnlink_ne_semOpen (sd ds : Fin NOSEM) : p.afterUnlink sd ≠ .semOpen ds := by
  unfold Proc.afterUnlink
  split
  · split <;> simp
  · simp

theorem Descr.moved (h : Descr clean st) (hc : Control st.pc) (hn : ∀ ds, st.pc none ≠ .semOpen ds)
    {c : Pc} (hm : Move st p c) : Descr clean (st.goto p c) := by
  have hat := hc.stands p
  have hgo : (∀ ds, c ≠ .semOpen ds) → (∀ sd, holds p c sd = holds p (st.pc p) sd) →
      Descr clean (st.goto p c) :=
    fun hne hsame => h.move rfl hn hne hsame rfl rfl (fun _ => rfl) fun _ => rfl
  cases hm with
  | forkedAll hp =>
      refine hgo (by simp) ?_
      intro sd
      simp [hp, holds]
  | found hp => exact hgo (by simp) (by simp [hp, holds])
  | notFound hp =>
      rw [hp] at hat
      refine hgo (afterUnlink_ne_semOpen _) ?_
      intro sd
      rw [holds_afterUnlink hat, hp]
      rfl
  | produces hp => exact hgo (by simp) (by simp [hp, holds])
  | produced hp hprod =>
      have hne : p ≠ none := by
        intro hn
        rw [hn] at hprod
        cases hprod
      exact hgo (by simp) (by simp [hp, holds, hne])
  | emptied hp =>
      rw [hp] at hat
      have hne : p ≠ none := by
        intro hn
        rw [hn] at hat
        exact hat
      exact hgo (by simp) (by simp [hp, holds, hne])
  | badWait ht hloop =>
      rcases ht with ⟨hp, _⟩ | ⟨hp, _, rfl⟩ | ⟨hp, _, rfl⟩
      · exact absurd hp hloop
      · exact hgo (by simp) (by simp [hp, holds])
      · exact hgo (by simp) (by simp [hp, holds])
  | childless hp => exact hgo (by simp) (by simp [hp, holds])
  | waited hp =>
      refine hgo (by simp) ?_
      intro sd
      simp only [hp, holds, Fin.lt_def, Fin.le_def]
      grind
  | @notOpen sd next hcl hs =>
      refine hgo (not_open_closes hcl) ?_
      intro x
      rw [holds_closes hcl]
      by_cases hx : x = sd
      · subst hx
        cases hh : holds p (st.pc p) x with
        | false => rfl
        | true =>
            obtain ⟨s, hs', _⟩ := h.open_of_holds hn hh
            rw [hs] at hs'
            cases hs'
      · simp [hx]

theorem Passes.fields {sd : Fin NOSEM} {s : Fin NSEM} {t : STable} (hp : Passes st p sd s t)
    (u : Fin NSEM) : (t u).bytes = (st.table u).bytes ∧ (t u).ref = (st.table u).ref ∧
      (t u).linked = (st.table u).linked := by
  rcases hp with ⟨_, rfl⟩ | ⟨_, rfl⟩
  · exact ⟨STable.modify_field Sem.bytes st.table s u rfl,
      STable.modify_field Sem.ref st.table s u rfl,
      STable.modify_field Sem.linked st.table s u rfl⟩
  · exact ⟨rfl, rfl, rfl⟩

/-- A step is an open of the parent, or it is taken after the opens by a process that has
been made. -/
theorem opening_or_later (hc : Control st.pc) (hs : Step st a st') :
    (∃ sd, a = .run none ∧ st.pc none = .semOpen sd ∧ st' = st.semOpen none sd) ∨
      ∀ ds, st.pc none ≠ .semOpen ds := by
  have hlater : ∀ {p : Proc main} {c : Pc}, st.pc p = c → c.Born → (∀ ds, c ≠ .semOpen ds) →
      ∀ ds, st.pc none ≠ .semOpen ds := by
    intro p c hp hborn hne
    subst hp
    exact hc.not_opening hborn hne
  cases hs with
  | @opened p sd hp =>
      have hat := hc.stands p
      rw [hp] at hat
      cases p with
      | none => exact .inl ⟨sd, rfl, hp, rfl⟩
      | some i => exact absurd hat id
  | moved hm =>
      right
      cases hm with
      | forkedAll hp => exact hlater hp (by simp [Pc.Born]) (by simp)
      | found hp => exact hlater hp (by simp [Pc.Born]) (by simp)
      | notFound hp => exact hlater hp (by simp [Pc.Born]) (by simp)
      | produces hp => exact hlater hp (by simp [Pc.Born]) (by simp)
      | produced hp => exact hlater hp (by simp [Pc.Born]) (by simp)
      | emptied hp => exact hlater hp (by simp [Pc.Born]) (by simp)
      | badWait ht =>
          rcases ht with ⟨hp, _⟩ | ⟨hp, _⟩ | ⟨hp, _⟩ <;>
            exact hlater hp (by simp [Pc.Born]) (by simp)
      | childless hp => exact hlater hp (by simp [Pc.Born]) (by simp)
      | waited hp => exact hlater hp (by simp [Pc.Born]) (by simp)
      | notOpen hcl =>
          rcases hcl with ⟨hp, _⟩ | ⟨hp, _⟩ <;> exact hlater hp (by simp [Pc.Born]) (by simp)
  | copied hp => exact .inr (hlater hp (by simp [Pc.Born]) (by simp))
  | copiedNone hp => exact .inr (hlater hp (by simp [Pc.Born]) (by simp))
  | forked hp => exact .inr (hlater hp (by simp [Pc.Born]) (by simp))
  | closed hcl =>
      rcases hcl with ⟨hp, _⟩ | ⟨hp, _⟩ <;> exact .inr (hlater hp (by simp [Pc.Born]) (by simp))
  | unlinked hp =>
      rcases hp with ⟨hp, _⟩ | ⟨hp, _⟩ <;> exact .inr (hlater hp (by simp [Pc.Born]) (by simp))
  | unlinkSleeps hp =>
      rcases hp with ⟨hp, _⟩ | ⟨hp, _⟩ <;> exact .inr (hlater hp (by simp [Pc.Born]) (by simp))
  | took ht =>
      rcases ht with ⟨hp, _⟩ | ⟨hp, _⟩ | ⟨hp, _⟩ <;>
        exact .inr (hlater hp (by simp [Pc.Born]) (by simp))
  | waitSleeps ht =>
      rcases ht with ⟨hp, _⟩ | ⟨hp, _⟩ | ⟨hp, _⟩ <;>
        exact .inr (hlater hp (by simp [Pc.Born]) (by simp))
  | messaged hp => exact .inr (hlater hp (by simp [Pc.Born]) (by simp))
  | posted ht =>
      rcases ht with ⟨hp, _⟩ | ⟨hp, _⟩ <;> exact .inr (hlater hp (by simp [Pc.Born]) (by simp))
  | postRefused ht =>
      rcases ht with ⟨hp, _⟩ | ⟨hp, _⟩ <;> exact .inr (hlater hp (by simp [Pc.Born]) (by simp))
  | childrenLeft hp => exact .inr (hlater hp (by simp [Pc.Born]) (by simp))
  | exited hp => exact .inr (hlater hp (by simp [Pc.Born]) (by simp))
  | reaped hp => exact .inr (hlater hp (by simp [Pc.Born]) (by simp))

theorem holds_takes {sd : Fin NOSEM} {next : Pc} (ht : Takes st p sd next) :
    (∀ ds, next ≠ .semOpen ds) ∧ ∀ x, holds p next x = holds p (st.pc p) x := by
  rcases ht with ⟨hp, _, _, rfl⟩ | ⟨hp, _, rfl⟩ | ⟨hp, _, rfl⟩ <;> simp [hp, holds]

theorem holds_posts {sd : Fin NOSEM} {next : Pc} {j : ℕ} (ht : Posts st p sd next j) :
    (∀ ds, next ≠ .semOpen ds) ∧ ∀ x, holds p next x = holds p (st.pc p) x := by
  rcases ht with ⟨hp, _, rfl, _⟩ | ⟨hp, _, rfl, _⟩ <;> simp [hp, holds]

theorem step_descr (h : Descr clean st) (hc : Control st.pc) (hok : Creates st a)
    (hs : Step st a st') : Descr clean st' := by
  rcases opening_or_later hc hs with ⟨sd, rfl, hp, rfl⟩ | hn
  · exact h.opens hc hp (hok none sd rfl hp)
  cases hs with
  | moved hm => exact h.moved hc hn hm
  | @opened p sd hp =>
      have hat := hc.stands p
      rw [hp] at hat
      cases p with
      | none => exact absurd hp (hn sd)
      | some i => exact absurd hat id
  | copied hp hi hs => exact h.copies hn hi hs
  | @copiedNone p i k hp hi hs =>
      have hh : holds p (st.pc p) k = true := by simp [hp, holds]
      obtain ⟨s, hs', _⟩ := h.open_of_holds hn hh
      rw [hs] at hs'
      cases hs'
  | @forked p i k hp hi hk =>
      have hmade : Descr clean (st.goto (some i) (.semClose waitcd)) := by
        refine h.move rfl hn (by simp) ?_ rfl rfl (fun _ => rfl) fun _ => rfl
        intro sd
        have := sd.isLt
        simp only [hi, holds]
        grind
      refine hmade.move rfl (by simpa [State.goto] using hn) (by simp) ?_ rfl rfl (fun _ => rfl)
        fun _ => rfl
      intro sd
      have hne : p ≠ some i := by
        intro heq
        rw [heq, hi] at hp
        cases hp
      rw [State.goto_pc_of_ne _ hne, hp]
      rfl
  | closed hcl hs => exact h.closes hn hcl hs
  | @unlinked p sd s t hp hr =>
      have hat := hc.stands p
      refine h.move rfl hn (afterUnlink_ne_semOpen sd) ?_ rfl rfl ?_ ?_
      · intro x
        rcases hp with ⟨hp, _⟩ | ⟨hp, _⟩ <;>
        · rw [hp] at hat ⊢
          rw [holds_afterUnlink (by cases p <;> exact hat)]
          rfl
      · intro u
        exact (STable.modify_field Sem.bytes t s u rfl).trans (hp.fields u).1
      · intro u
        exact (STable.modify_field Sem.ref t s u rfl).trans (hp.fields u).2.1
  | @unlinkSleeps p sd s t hp hr =>
      refine h.move rfl hn (by simp) ?_ rfl rfl (fun u => (hp.fields u).1)
        fun u => (hp.fields u).2.1
      intro x
      rcases hp with ⟨hp, _⟩ | ⟨hp, _⟩ <;> simp [hp, holds]
  | took ht hs hpos =>
      obtain ⟨hne, hsame⟩ := holds_takes ht
      exact h.move rfl hn hne hsame rfl rfl (fun u => STable.modify_field Sem.bytes _ _ u rfl)
        fun u => STable.modify_field Sem.ref _ _ u rfl
  | waitSleeps => exact h.congr hn hn rfl rfl (fun _ _ => rfl) (fun _ => rfl) fun _ => rfl
  | messaged hp =>
      unfold State.message
      split <;>
        exact h.move rfl hn (by simp) (by simp [hp, holds]) rfl rfl (fun _ => rfl) fun _ => rfl
  | posted ht hs hne =>
      obtain ⟨hne, hsame⟩ := holds_posts ht
      exact h.move rfl hn hne hsame rfl rfl (fun u => STable.modify_field Sem.bytes _ _ u rfl)
        fun u => STable.modify_field Sem.ref _ _ u rfl
  | postRefused ht =>
      obtain ⟨hne, hsame⟩ := holds_posts ht
      exact h.move rfl hn hne hsame rfl rfl (fun _ => rfl) fun _ => rfl
  | childrenLeft => exact h.congr hn hn rfl rfl (fun _ _ => rfl) (fun _ => rfl) fun _ => rfl
  | exited hp hk =>
      refine h.move rfl hn (by simp) ?_ rfl rfl (fun _ => rfl) fun _ => rfl
      intro sd
      have := sd.isLt
      simp only [hp, holds]
      grind
  | @reaped c i hp hi hc =>
      have hreap : Descr clean (st.goto (some c) .reaped) :=
        h.move rfl hn (by simp) (by simp [hc, holds]) rfl rfl (fun _ => rfl) fun _ => rfl
      exact hreap.move rfl (by simpa [State.goto] using hn) (by simp)
        (by simp [State.goto, hp, holds]) rfl rfl (fun _ => rfl) fun _ => rfl

theorem descr_start (main : Main) {table : STable} (href : clean → ∀ s, 0 ≤ (table s).ref) :
    Descr clean (start main table) where
  osem p sd := by
    simp only [start]
    split <;> rfl
  isOpen sd hsd := by
    have hlt := hsd waitcd (by simp [start])
    exact absurd hlt (Fin.not_lt_zero sd)
  notYet _ _ _ _ := rfl
  injective sd sd' s h := by cases h
  carries sd s h := by cases h
  linked sd s ds _ h := by cases h
  ref sd s h := by cases h
  nonneg := href
  only _ sd s h := by cases h

theorem control_start (main : Main) (table : STable) : Control (start main table).pc where
  stands p := by cases p <;> simp [start, StandsAt]
  made i := by simp [start, Made]
  reaped := by simp [start, tally, waited]

end OsSolutions.ProdCons
