import OsSolutions.Verification.Table.Ownership

/-! # Who wakes a blocked `sem_unlink`

The close that drops the last reference wakes the unlinkers if the slot is marked. The mark
lasts until the slot is initialised again, which may happen while an unlinker that was woken
has not yet looked. -/

namespace OsSolutions.Table

open Transition

variable {P : Type*} [DecidableEq P] {pid : P → Int32} {st st' : State P} {a : Act P}

/-- Whoever sleeps in `sem_unlink` waits for a slot that is still held and marked. -/
def Awaited (st : State P) : Prop :=
  ∀ p name s, st.pc p = .waiting name s true →
    0 < (st.table s).ref ∧ (st.table s).waitingForDeath = true

/-- A slot is initialised only when it has no reference and no unlinker is left in its
loop on it. -/
def RecyclesAlone (st : State P) : Act P → Prop
  | .resume p => ∀ spot name init maxVal, st.pc p = .opening spot name init maxVal →
      (st.table spot).ref = 0 ∧ ∀ q n b, st.pc q ≠ .waiting n spot b
  | _ => True

/-- The mark outlasts the sleep: it is kept as long as an unlinker is in its loop. -/
structure Guarded (st : State P) : Prop where
  counted : Counted st
  marked : ∀ p name s b, st.pc p = .waiting name s b → (st.table s).waitingForDeath = true
  held : ∀ p name s, st.pc p = .waiting name s true → 0 < (st.table s).ref

omit [DecidableEq P] in
theorem Guarded.awaited (h : Guarded st) : Awaited st :=
  fun p n s hp => ⟨h.held p n s hp, h.marked p n s true hp⟩

/-! ## Moves of the processes -/

omit [DecidableEq P] in
/-- Nobody begins to wait or falls asleep, and no slot loses its mark or, under a sleeper,
its references. -/
theorem Guarded.congr (h : Guarded st) (hc : Counted st')
    (hpc : ∀ p n s b, st'.pc p = .waiting n s b →
      ∃ b', st.pc p = .waiting n s b' ∧ (b = true → b' = true))
    (hmark : ∀ p n s b, st'.pc p = .waiting n s b → (st.table s).waitingForDeath = true →
      (st'.table s).waitingForDeath = true)
    (href : ∀ p n s, st'.pc p = .waiting n s true → 0 < (st.table s).ref →
      0 < (st'.table s).ref) : Guarded st' := by
  refine ⟨hc, ?_, ?_⟩
  · intro p n s b hp
    obtain ⟨b', hp', _⟩ := hpc p n s b hp
    exact hmark p n s b hp (h.marked p n s b' hp')
  · intro p n s hp
    obtain ⟨b', hp', hb⟩ := hpc p n s true hp
    exact href p n s hp (h.held p n s (hb rfl ▸ hp'))

theorem waiting_of_goto {p q : P} {c : Pc} {n : CString} {s : Fin NSEM} {b : Bool}
    (hq : (st.goto p c).pc q = .waiting n s b) :
    (q = p ∧ c = .waiting n s b) ∨ st.pc q = .waiting n s b := by
  by_cases hqp : q = p
  · rw [hqp, State.goto_pc_self] at hq
    exact .inl ⟨hqp, hq⟩
  · rw [State.goto_pc_of_ne c hqp] at hq
    exact .inr hq

omit [DecidableEq P] in
theorem waiting_of_wakeup {pc : P → Pc} {p : P} {n : CString} {s : Fin NSEM} {b : Bool}
    (hp : wakeup pc p = .waiting n s b) : b = false ∧ ∃ b', pc p = .waiting n s b' := by
  cases hpc : pc p with
  | waiting m u b' =>
      simp only [wakeup, hpc, Pc.waiting.injEq] at hp
      exact ⟨hp.2.2.symm, b', by rw [hp.1, hp.2.1]⟩
  | _ => simp [wakeup, hpc] at hp

/-- A process goes where nobody waits. -/
theorem Guarded.goto (h : Guarded st) (p : P) {c : Pc} (hc : ∀ n s b, c ≠ .waiting n s b) :
    Guarded (st.goto p c) := by
  apply h.congr (h.counted.goto p c)
  · intro q n s b hq
    exact ⟨b, (waiting_of_goto hq).resolve_left fun hw => hc n s b hw.2, id⟩
  · exact fun _ _ _ _ _ hm => hm
  · exact fun _ _ _ _ hr => hr

theorem Guarded.sleep (h : Guarded st) (p : P) (name : CString) {s : Fin NSEM}
    (hmark : (st.table s).waitingForDeath = true) (hr : (st.table s).ref ≠ 0) :
    Guarded (st.goto p (.waiting name s true)) := by
  have hpos : 0 < (st.table s).ref := by
    have := h.counted.ref_eq s
    omega
  refine ⟨h.counted.goto p _, ?_, ?_⟩
  · intro q n u b hq
    rcases waiting_of_goto hq with ⟨_, hc⟩ | hq
    · cases hc
      exact hmark
    · exact h.marked q n u b hq
  · intro q n u hq
    rcases waiting_of_goto hq with ⟨_, hc⟩ | hq
    · cases hc
      exact hpos
    · exact h.held q n u hq

/-! ## Sections -/

omit [DecidableEq P] in
theorem Guarded.hold (h : Guarded st) {s : Fin NSEM} {k : Hold P} (hks : k.slot = s)
    (hpos : 0 < (st.table s).ref) : Guarded (st.hold (semdup st.table s) k) := by
  apply h.congr (h.counted.hold hks hpos)
  · exact fun q n u b hq => ⟨b, hq, id⟩
  · intro _ _ u _ _ hm
    simp only [State.hold]
    rwa [show (semdup st.table s u).waitingForDeath = (st.table u).waitingForDeath from
      STable.modify_field Sem.waitingForDeath st.table s u rfl]
  · intro _ _ u _ hr
    simp only [State.hold, semdup_ref]
    split <;> omega

omit [DecidableEq P] in
theorem Guarded.create (h : Guarded st) (p : P) {spot : Fin NSEM} (name : CString)
    (init maxVal pid : Int32) (hzero : (st.table spot).ref = 0)
    (halone : ∀ q n b, st.pc q ≠ .waiting n spot b) :
    Guarded (st.hold (semOpenInit st.table spot name init maxVal pid) ⟨p, spot, name⟩) := by
  have hother : ∀ q n u b, st.pc q = .waiting n u b →
      semOpenInit st.table spot name init maxVal pid u = st.table u := by
    intro q n u b hq
    have hne : u ≠ spot := by
      intro heq
      subst heq
      exact halone q n b hq
    exact STable.modify_of_ne _ _ hne
  apply h.congr ((h.counted.created_iff p spot name init maxVal pid).mpr hzero)
  · exact fun q n u b hq => ⟨b, hq, id⟩
  · intro q n u b hq hm
    simp only [State.hold]
    rwa [hother q n u b hq]
  · intro q n u hq hr
    simp only [State.hold]
    rwa [hother q n u true hq]

/-- The close that drops the last reference of a marked slot leaves nobody asleep. -/
theorem Guarded.close (h : Guarded st) {k : Hold P} (hk : k ∈ st.holds) :
    Guarded (({ st with
      table := (semClose st.table k.slot).1, holds := st.holds.erase k } : State P).wakeIf
        (semClose st.table k.slot).2) := by
  have hmark : ∀ u, ((semClose st.table k.slot).1 u).waitingForDeath =
      (st.table u).waitingForDeath :=
    fun u => STable.modify_field Sem.waitingForDeath st.table k.slot u rfl
  have hwake : (semClose st.table k.slot).2 = true ↔
      (st.table k.slot).ref = 1 ∧ (st.table k.slot).waitingForDeath = true := by
    simp [semClose]
    omega
  apply h.congr (h.counted.close hk)
  · intro p n s b hp
    cases hw : (semClose st.table k.slot).2 with
    | true =>
        rw [hw] at hp
        obtain ⟨rfl, b', hp'⟩ := waiting_of_wakeup hp
        exact ⟨b', hp', by simp⟩
    | false =>
        rw [hw] at hp
        exact ⟨b, hp, id⟩
  · intro _ _ s _ _ hm
    rwa [State.wakeIf_table, hmark]
  · intro p n s hp hpos
    rw [State.wakeIf_table, semClose_ref]
    cases hw : (semClose st.table k.slot).2 with
    | true =>
        rw [hw] at hp
        simpa using (waiting_of_wakeup hp).1
    | false =>
        rw [hw] at hp
        have hm := h.marked p n s true hp
        by_cases hks : k.slot = s
        · subst hks
          have hne : (st.table k.slot).ref ≠ 1 := by
            intro hone
            rw [hwake.mpr ⟨hone, hm⟩] at hw
            cases hw
          simp only [if_true]
          omega
        · simpa [hks] using hpos

omit [DecidableEq P] in
/-- Setting the mark endangers nobody. -/
theorem Guarded.passes (h : Guarded st) {p : P} {name : CString} {s : Fin NSEM} {t : STable}
    (hp : Passes st a p name s t) :
    Guarded ({ st with table := t } : State P) ∧ (t s).waitingForDeath = true := by
  have hmark : ∀ u, (st.table u).waitingForDeath = true → (t u).waitingForDeath = true := by
    intro u hu
    rcases hp.2 with ⟨_, rfl⟩ | ⟨_, rfl⟩
    · rw [semUnlinkMark, STable.modify_apply]
      split
      · rfl
      · exact hu
    · exact hu
  constructor
  · apply h.congr (h.counted.passes hp)
    · exact fun q n u b hq => ⟨b, hq, id⟩
    · exact fun _ _ u _ _ hu => hmark u hu
    · intro _ _ u _ hr
      rwa [hp.field_eq Sem.ref fun _ => rfl]
  · rcases hp.2 with ⟨_, rfl⟩ | ⟨hpc, rfl⟩
    · simp [semUnlinkMark]
    · exact h.marked p name s false hpc

omit [DecidableEq P] in
theorem Guarded.unlink {t : STable} (h : Guarded ({ st with table := t } : State P))
    {s : Fin NSEM} (hr : (t s).ref = 0) :
    Guarded ({ st with table := t.modify s fun x => { x with linked := false } } : State P) := by
  apply h.congr (h.counted.unlink hr)
  · exact fun q n u b hq => ⟨b, hq, id⟩
  · intro _ _ u _ _ hm
    exact (STable.modify_field Sem.waitingForDeath t s u rfl).trans hm
  · intro _ _ u _ hpos
    rwa [STable.modify_field Sem.ref t s u rfl]

theorem Guarded.kill (h : Guarded st) {p : P} {c : Pc}
    (hc : st.pc p = c ∨ ∃ n s b, st.pc p = .waiting n s b ∧ c = .waiting n s false) :
    Guarded { st.goto p c with killed := Function.update st.killed p true } := by
  have hpc : ∀ q n s b, (st.goto p c).pc q = .waiting n s b →
      ∃ b', st.pc q = .waiting n s b' ∧ (b = true → b' = true) := by
    intro q n s b hq
    rcases waiting_of_goto hq with ⟨rfl, rfl⟩ | hq
    · rcases hc with hc | ⟨m, u, b', hc, he⟩
      · exact ⟨b, hc, id⟩
      · cases he
        exact ⟨b', hc, by simp⟩
    · exact ⟨b, hq, id⟩
  exact h.congr (h.counted.congr rfl (fun _ => rfl) fun _ => .inl) hpc (fun _ _ _ _ _ hm => hm)
    fun _ _ _ _ hr => hr

theorem step_guarded (h : Guarded st) (hok : RecyclesAlone st a)
    (hs : step pid st a = some st') : Guarded st' := by
  cases step_cases hs with
  | attached hp hopen => exact h.hold rfl hopen.held
  | spotted => exact h.goto _ (by simp)
  | full => exact h
  | @created p spot name init maxVal hp =>
      obtain ⟨hzero, halone⟩ := hok spot name init maxVal hp
      exact (h.create p name init maxVal (pid p) hzero halone).goto p (by simp)
  | dupped hk => exact h.hold rfl (h.counted.ref_pos hk)
  | closed hk => exact h.close hk
  | found => exact h.goto _ (by simp)
  | notFound => exact h
  | unlinked hp hr => exact ((h.passes hp).1.unlink hr).goto _ (by simp)
  | givenUp hp => exact (h.passes hp).1.goto _ (by simp)
  | sleeps hp hr => exact (h.passes hp).1.sleep _ _ (h.passes hp).2 hr
  | killed hc => exact h.kill hc

/-- While unlinkers are left alone in their loops, whoever sleeps in `sem_unlink` waits for
a held and marked slot, and no close drops the last reference under a sleeper. -/
theorem awaited_of_reachable (pid : P → Int32) (st : State P)
    (h : Reachable (step pid) RecyclesAlone start st) :
    Awaited st ∧ ∀ k st', step pid st (.close k) = some st' →
      (st'.table k.slot).ref = 0 → ∀ p name, st'.pc p ≠ .waiting name k.slot true := by
  have hguarded : Guarded st := by
    apply h.invariant
    · exact ⟨counted_start, by simp [start], by simp [start]⟩
    · exact fun _ _ _ hg hok hs => step_guarded hg hok hs
  refine ⟨hguarded.awaited, ?_⟩
  intro k st' hs hzero p name hp
  have hclose : RecyclesAlone st (.close k) := trivial
  have hpos := (step_guarded hguarded hclose hs).held p name k.slot hp
  omega

/-- Process 1 sleeps on the semaphore that process 0 has open. -/
theorem awaited_of_reachable_waitc :
    ∃ st : State (Fin 2), st.pc 1 = .waiting ⟨[119], by decide⟩ 0 true ∧ Awaited st ∧
      ∀ k st', step (fun p => if p = 0 then 1 else 2) st (.close k) = some st' →
        (st'.table k.slot).ref = 0 → ∀ p name, st'.pc p ≠ .waiting name k.slot true := by
  have hok : Meets (step fun p : Fin 2 => if p = 0 then 1 else 2) RecyclesAlone start
      [.open 0 ⟨[119], by decide⟩ 0 1, .resume 0, .unlink 1 ⟨[119], by decide⟩, .resume 1] := by
    refine .cons rfl trivial (.cons rfl ?_ (.cons rfl trivial (.cons rfl ?_ trivial)))
    · intro spot name init maxVal h
      cases h
      refine ⟨by decide, ?_⟩
      intro q n b hq
      match q with
      | 0 => cases hq
      | 1 => cases hq
    · intro spot name init maxVal h
      cases h
  exact ⟨_, by decide, awaited_of_reachable _ _ (reachable_iff_run.mpr ⟨_, rfl, hok⟩)⟩

/-- Of two unlinkers that the last close woke, the first frees the slot; it is opened
again, the second goes back to sleep on the new semaphore, and the next last close finds
no mark. -/
theorem semUnlink_sleeps_unmarked :
    ∃ st : State (Fin 3),
      run (step fun _ => 1) start
        [.open 0 ⟨[119], by decide⟩ 0 1, .resume 0,
          .unlink 1 ⟨[119], by decide⟩, .resume 1, .unlink 2 ⟨[119], by decide⟩, .resume 2,
          .close ⟨0, 0, ⟨[119], by decide⟩⟩, .resume 1,
          .open 0 ⟨[119], by decide⟩ 0 1, .resume 0, .resume 2,
          .close ⟨0, 0, ⟨[119], by decide⟩⟩] = some st ∧
      st.pc 2 = .waiting ⟨[119], by decide⟩ 0 true ∧ (st.table 0).ref = 0 ∧
      (st.table 0).waitingForDeath = false ∧ ¬ Awaited st :=
  ⟨_, rfl, by decide, by decide, by decide,
    fun h => absurd (h 2 ⟨[119], by decide⟩ 0 (by decide)) (by decide)⟩

end OsSolutions.Table
