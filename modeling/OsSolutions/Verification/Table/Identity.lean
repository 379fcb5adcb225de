import OsSolutions.Verification.Table.Steps
import OsSolutions.Verification.Sem.Naming

/-! # Whose slot `sem_unlink` marks

`sem_unlink` keeps a slot pointer from its lookup on. The slot may be freed and opened again
under another name before the pointer is used. -/

namespace OsSolutions.Table

open Transition

variable {P : Type*}

/-- The names of the call have at most seven characters. -/
def Act.Short : Act P → Prop
  | .open _ name _ _ | .unlink _ name => name.length ≤ 7
  | _ => True

/-- The process is in `sem_unlink` and has found the slot for the name. -/
def Unlinks (c : Pc) (name : CString) (found : Fin NSEM) : Prop :=
  c = .unlinking name found ∨ ∃ asleep, c = .waiting name found asleep

/-- A pass of `sem_unlink` that marks its slot or clears `linked` finds the name there. -/
def MarksOwn (st : State P) (a : Act P) : Prop :=
  ∀ p name s t, Passes st a p name s t →
    st.pc p = .unlinking name s ∨ (t s).ref = 0 → (st.table s).Carries name

/-- No slot is opened under a name while an unlinker of another name has it found. -/
def OpensUnwatched (st : State P) : Act P → Prop
  | .resume p => ∀ spot name init maxVal, st.pc p = .opening spot name init maxVal →
      ∀ q n, Unlinks (st.pc q) n spot → n = name
  | _ => True

/-- Whoever has a slot found for a name finds that name in it. -/
structure Named (st : State P) : Prop where
  carries : ∀ p n s, Unlinks (st.pc p) n s → (st.table s).Carries n
  short : ∀ p spot n init maxVal, st.pc p = .opening spot n init maxVal → n.length ≤ 7

theorem Named.marksOwn {st : State P} (h : Named st) (a : Act P) : MarksOwn st a := by
  intro p n s t hp _
  rcases hp.2 with ⟨hpc, _⟩ | ⟨hpc, _⟩
  · exact h.carries p n s (.inl hpc)
  · exact h.carries p n s (.inr ⟨false, hpc⟩)

/-- Nobody finds a slot or begins to open one, and the found slots keep their names. -/
theorem Named.congr {st st' : State P} (h : Named st)
    (hpc : ∀ p n s, Unlinks (st'.pc p) n s → Unlinks (st.pc p) n s)
    (hopen : ∀ p spot n init maxVal, st'.pc p = .opening spot n init maxVal →
      st.pc p = .opening spot n init maxVal)
    (hbytes : ∀ s, (st'.table s).bytes = (st.table s).bytes) : Named st' where
  carries p n s hp i hi := (hbytes s).symm ▸ h.carries p n s (hpc p n s hp) i hi
  short p spot n init maxVal hp := h.short p spot n init maxVal (hopen p spot n init maxVal hp)

variable [DecidableEq P] {pid : P → Int32} {st st' : State P} {a : Act P}

/-- A process goes to `c`, where it has found what it had found or what carries the name. -/
theorem Named.goto (h : Named st) (p : P) {c : Pc}
    (hc : ∀ n s, Unlinks c n s → (st.table s).Carries n)
    (hopen : ∀ spot n init maxVal, c = .opening spot n init maxVal → n.length ≤ 7) :
    Named (st.goto p c) where
  carries := by
    intro q n s hq
    by_cases hqp : q = p
    · subst hqp
      rw [State.goto_pc_self] at hq
      exact hc n s hq
    · rw [State.goto_pc_of_ne c hqp] at hq
      exact h.carries q n s hq
  short := by
    intro q spot n init maxVal hq
    by_cases hqp : q = p
    · subst hqp
      rw [State.goto_pc_self] at hq
      exact hopen spot n init maxVal hq
    · rw [State.goto_pc_of_ne c hqp] at hq
      exact h.short q spot n init maxVal hq

theorem Named.idle (h : Named st) (p : P) : Named (st.goto p .idle) :=
  h.goto p (by simp [Unlinks]) (by simp)

/-! ## Sections -/

omit [DecidableEq P] in
theorem Named.table (h : Named st) {t : STable} (hbytes : ∀ s, (t s).bytes = (st.table s).bytes)
    (holds : List (Hold P)) : Named { st with table := t, holds := holds } :=
  h.congr (fun _ _ _ hp => hp) (fun _ _ _ _ _ hp => hp) hbytes

omit [DecidableEq P] in
theorem Named.create (h : Named st) {p : P} {spot : Fin NSEM} {name : CString}
    {init maxVal : Int32} (hp : st.pc p = .opening spot name init maxVal)
    (hsame : ∀ q n, Unlinks (st.pc q) n spot → n = name) (pid : Int32) :
    Named (st.hold (semOpenInit st.table spot name init maxVal pid) ⟨p, spot, name⟩) where
  carries := by
    intro q n s hq
    by_cases hs : s = spot
    · subst hs
      obtain rfl : n = name := hsame q n hq
      have hshort := h.short p s n init maxVal hp
      simp only [State.hold, semOpenInit, STable.modify_self]
      exact Sem.opened_carries _ _ _ _ (by omega)
    · have hcarries := h.carries q n s hq
      simp only [State.hold, semOpenInit, STable.modify_of_ne _ _ hs]
      exact hcarries
  short := h.short

omit [DecidableEq P] in
theorem Named.wakeIf (h : Named st) (wake : Bool) : Named (st.wakeIf wake) := by
  cases wake with
  | false => exact h
  | true =>
      apply h.congr
      · intro p n s hp
        simp only [State.wakeIf, if_true, wakeup] at hp
        split at hp
        · rename_i m u b hpc
          rcases hp with hp | ⟨b', hp⟩
          · cases hp
          · cases hp
            exact .inr ⟨b, hpc⟩
        · exact hp
      · intro p spot n init maxVal hp
        simp only [State.wakeIf, if_true, wakeup] at hp
        split at hp
        · cases hp
        · exact hp
      · exact fun _ => rfl

omit [DecidableEq P] in
theorem Named.passes (h : Named st) {p : P} {name : CString} {s : Fin NSEM} {t : STable}
    (hp : Passes st a p name s t) :
    Named ({ st with table := t } : State P) ∧ Unlinks (st.pc p) name s := by
  rcases hp.2 with ⟨hpc, rfl⟩ | ⟨hpc, rfl⟩
  · refine ⟨h.table ?_ _, .inl hpc⟩
    exact fun u => STable.modify_field Sem.bytes st.table s u rfl
  · exact ⟨h, .inr ⟨false, hpc⟩⟩

/-- The lookup finds a slot that carries the name. -/
theorem step_unlink {p : P} {name : CString} (hshort : name.length ≤ 7)
    (hs : step pid st (.unlink p name) = some st') :
    st' = st ∨ ∃ s, (st.table s).Carries name ∧ st' = st.goto p (.unlinking name s) := by
  by_cases hp : st.pc p = .idle
  · simp only [step, hp, if_true, semUnlinkScan_eq] at hs
    cases hscan : (List.finRange NSEM).find? fun s => (st.table s).matches name with
    | none => exact .inl (by simpa [hscan] using hs.symm)
    | some s =>
        obtain ⟨hmatches, _⟩ := (find?_finRange_eq_some _ s).mp hscan
        have hlen : name.length < SEMNAME := Nat.lt_of_le_of_lt hshort (by decide)
        exact .inr ⟨s, (Sem.matches_iff_carries hlen).mp hmatches,
          by simpa [hscan] using hs.symm⟩
  · simp [step, hp] at hs

theorem step_named (h : Named st) (hok : OpensUnwatched st a ∧ a.Short)
    (hs : step pid st a = some st') : Named st' := by
  cases step_cases hs with
  | attached hp hopen =>
      exact h.table (fun u => STable.modify_field Sem.bytes st.table _ u rfl) _
  | @spotted p name init maxVal spot hp _ _ =>
      refine h.goto p (by simp [Unlinks]) ?_
      intro spot' n init' maxVal' hc
      cases hc
      exact hok.2
  | full => exact h
  | @created p spot name init maxVal hp =>
      exact (h.create hp (hok.1 spot name init maxVal hp) (pid p)).idle p
  | dupped => exact h.table (fun u => STable.modify_field Sem.bytes st.table _ u rfl) _
  | @closed k =>
      apply Named.wakeIf
      apply h.table
      exact fun u => STable.modify_field Sem.bytes st.table k.slot u rfl
  | @found p name s hp =>
      rcases step_unlink hok.2 hs with heq | ⟨u, hcarries, heq⟩
      · rw [heq]
        exact h
      · rw [heq]
        apply h.goto p _ (by simp)
        intro n v hv
        obtain ⟨rfl, rfl⟩ : name = n ∧ u = v := by simpa [Unlinks] using hv
        exact hcarries
  | notFound => exact h
  | unlinked hp hr =>
      apply Named.idle
      exact (h.passes hp).1.table (fun u => STable.modify_field Sem.bytes _ _ u rfl) _
  | givenUp hp => exact (h.passes hp).1.idle _
  | @sleeps _ p name s t hp =>
      obtain ⟨hnamed, hunlinks⟩ := h.passes hp
      apply hnamed.goto p _ (by simp)
      intro n v hv
      obtain ⟨rfl, rfl⟩ : name = n ∧ s = v := by simpa [Unlinks] using hv
      exact hnamed.carries p name s hunlinks
  | @killed p c hc =>
      have hgoto : Named (st.goto p c) := by
        apply h.goto p
        · intro n s hu
          rcases hc with hc | ⟨m, u, b, hpc, rfl⟩
          · exact h.carries p n s (hc ▸ hu)
          · obtain ⟨rfl, rfl⟩ : m = n ∧ u = s := by simpa [Unlinks] using hu
            exact h.carries p m u (.inr ⟨b, hpc⟩)
        · intro spot n init maxVal heq
          rcases hc with hc | ⟨m, u, b, hpc, rfl⟩
          · exact h.short p spot n init maxVal (hc.trans heq)
          · cases heq
      exact ⟨hgoto.carries, hgoto.short⟩

/-! ## Runs -/

omit [DecidableEq P] in
theorem named_start : Named (start : State P) :=
  ⟨by simp [start, Unlinks], by simp [start]⟩

/-- In a run with names of at most seven characters in which no slot changes its name under
an unlinker, every `sem_unlink` marks and unlinks only a slot of its own name. -/
theorem meets_marksOwn (pid : P → Int32) (acts : List (Act P)) (hshort : ∀ a ∈ acts, a.Short)
    (h : Meets (step pid) OpensUnwatched start acts) :
    Meets (step pid) MarksOwn start acts := by
  apply (h.and_mem hshort).imp (I := Named) named_start
  · exact fun _ _ _ hn hok hs => step_named hn hok hs
  · exact fun _ a hn _ => hn.marksOwn a

/-- Process 1 unlinks the name that process 0 has open, and sleeps. -/
theorem meets_marksOwn_waitc :
    Meets (step fun _ : Fin 2 => 1) MarksOwn start
      [.open 0 ⟨[119], by decide⟩ 0 1, .resume 0, .unlink 1 ⟨[119], by decide⟩, .resume 1] := by
  apply meets_marksOwn
  · intro a ha
    simp only [List.mem_cons, List.not_mem_nil, or_false] at ha
    rcases ha with rfl | rfl | rfl | rfl <;> simp [Act.Short, CString.length]
  · refine .cons rfl trivial (.cons rfl ?_ (.cons rfl trivial (.cons rfl ?_ trivial)))
    · intro spot name init maxVal hp q n hq
      obtain rfl | rfl : q = 0 ∨ q = 1 := by omega
      · rcases hq with hq | ⟨b, hq⟩ <;> cases hq
      · rcases hq with hq | ⟨b, hq⟩ <;> cases hq
    · intro spot name init maxVal hp
      cases hp

/-- Process 1 has looked "a" up when process 2 unlinks it and process 0 opens and closes "b"
in the same slot: process 1 marks and unlinks "b". -/
theorem semUnlink_removes_other :
    let a : CString := ⟨[97], by decide⟩
    let b : CString := ⟨[98], by decide⟩
    ∃ st st' : State (Fin 3),
      run (step fun _ => 1) start
        [.open 0 a 1 1, .resume 0, .close ⟨0, 0, a⟩, .unlink 1 a, .unlink 2 a, .resume 2,
          .open 0 b 1 1, .resume 0, .close ⟨0, 0, b⟩] = some st ∧
      st.pc 1 = .unlinking a 0 ∧ (st.table 0).Carries b ∧ (st.table 0).linked = true ∧
      step (fun _ => 1) st (.resume 1) = some st' ∧ (st'.table 0).waitingForDeath = true ∧
      (st'.table 0).linked = false ∧ ¬ MarksOwn st (.resume 1) := by
  refine ⟨_, _, rfl, by decide, by decide, by decide, rfl, by decide, by decide, ?_⟩
  intro h
  exact absurd (h 1 ⟨[97], by decide⟩ 0 _ ⟨rfl, .inl ⟨by decide, rfl⟩⟩ (.inl (by decide)))
    (by decide)

end OsSolutions.Table
