import OsSolutions.Model.TableMachine
import OsSolutions.Transition.Run
import OsSolutions.Verification.Sem.Sections

/-! # The steps of the machine of the semaphore table, branch by branch -/

namespace OsSolutions.Table

variable {P : Type*} [DecidableEq P] {pid : P → Int32} {st st' : State P} {a : Act P}

/-! ## Fields after a write -/

namespace State

@[simp] theorem goto_table (p : P) (c : Pc) : (st.goto p c).table = st.table := rfl

@[simp] theorem goto_holds (p : P) (c : Pc) : (st.goto p c).holds = st.holds := rfl

@[simp] theorem goto_pc_self (p : P) (c : Pc) : (st.goto p c).pc p = c := by simp [goto]

theorem goto_pc_of_ne {p q : P} (c : Pc) (h : q ≠ p) : (st.goto p c).pc q = st.pc q := by
  simp [goto, h]

omit [DecidableEq P] in
@[simp] theorem wakeIf_table (wake : Bool) : (st.wakeIf wake).table = st.table := by
  cases wake <;> rfl

omit [DecidableEq P] in
@[simp] theorem wakeIf_holds (wake : Bool) : (st.wakeIf wake).holds = st.holds := by
  cases wake <;> rfl

/-- A `sem_open` returns the slot `s` to `p`: one more hold. -/
def hold (st : State P) (t : STable) (h : Hold P) : State P :=
  { st with table := t, holds := h :: st.holds }

end State

/-- The lowest open slot that answers to the name. -/
structure FirstOpen (t : STable) (name : CString) (s : Fin NSEM) : Prop where
  held : 0 < (t s).ref
  answers : (t s).matches name
  first : ∀ u < s, ¬ (0 < (t u).ref ∧ (t u).matches name)

/-! ## Inversion -/

/-- The process takes a pass of the loop of `sem_unlink` on `found`, in the table `t`. -/
def Passes (st : State P) (a : Act P) (p : P) (name : CString) (found : Fin NSEM)
    (t : STable) : Prop :=
  a = .resume p ∧
    ((st.pc p = .unlinking name found ∧ t = semUnlinkMark st.table found) ∨
      (st.pc p = .waiting name found false ∧ t = st.table))

/-- One rule for each way through the sections of the four calls. -/
inductive Step (pid : P → Int32) (st : State P) : Act P → State P → Prop
  | attached {p name init maxVal s} : st.pc p = .idle → FirstOpen st.table name s →
      Step pid st (.open p name init maxVal) (st.hold (semdup st.table s) ⟨p, s, name⟩)
  | spotted {p name init maxVal spot} : st.pc p = .idle → (st.table spot).linked = false →
      (∀ s, ¬ (0 < (st.table s).ref ∧ (st.table s).matches name)) →
      Step pid st (.open p name init maxVal) (st.goto p (.opening spot name init maxVal))
  | full {p name init maxVal} : st.pc p = .idle →
      (∀ s, ¬ (0 < (st.table s).ref ∧ (st.table s).matches name)) →
      Step pid st (.open p name init maxVal) st
  | created {p spot name init maxVal} : st.pc p = .opening spot name init maxVal →
      Step pid st (.resume p) ((st.hold (semOpenInit st.table spot name init maxVal (pid p))
        ⟨p, spot, name⟩).goto p .idle)
  | dupped {h q} : h ∈ st.holds → st.pc h.proc = .idle →
      Step pid st (.dup h q) (st.hold (semdup st.table h.slot) { h with proc := q })
  | closed {h} : h ∈ st.holds → st.pc h.proc = .idle →
      Step pid st (.close h) ({ st with
        table := (semClose st.table h.slot).1, holds := st.holds.erase h }.wakeIf
          (semClose st.table h.slot).2)
  | found {p name s} : st.pc p = .idle →
      Step pid st (.unlink p name) (st.goto p (.unlinking name s))
  | notFound {p name} : st.pc p = .idle → Step pid st (.unlink p name) st
  | unlinked {a p name s t} : Passes st a p name s t → (t s).ref = 0 →
      Step pid st a ({ st with table := t.modify s fun x => { x with linked := false } }.goto
        p .idle)
  | givenUp {a p name s t} : Passes st a p name s t → (t s).ref ≠ 0 → st.killed p = true →
      Step pid st a ({ st with table := t }.goto p .idle)
  | sleeps {a p name s t} : Passes st a p name s t → (t s).ref ≠ 0 → st.killed p = false →
      Step pid st a ({ st with table := t }.goto p (.waiting name s true))
  | killed {p c} : (st.pc p = c ∨
        ∃ name s b, st.pc p = .waiting name s b ∧ c = .waiting name s false) →
      Step pid st (.kill p) { st.goto p c with killed := Function.update st.killed p true }

theorem unlinkPass_step {p : P} {name : CString} {s : Fin NSEM} {t : STable}
    (h : Passes st a p name s t) :
    Step pid st a (({ st with table := t } : State P).unlinkPass p name s) := by
  unfold State.unlinkPass semUnlinkPass
  by_cases hr : (t s).ref = 0
  · simpa [hr] using Step.unlinked h hr
  · cases hk : st.killed p with
    | true => simpa [hr, hk] using Step.givenUp h hr hk
    | false => simpa [hr, hk] using Step.sleeps h hr hk

/-- Everything a step can do. -/
theorem step_cases (h : step pid st a = some st') : Step pid st a st' := by
  cases a with
  | «open» p name init maxVal =>
      by_cases hp : st.pc p = .idle
      · simp only [step, hp, if_true] at h
        rcases semOpenScan_cases st.table name with
          ⟨s, hscan, hopen⟩ | ⟨s, hscan, hfree, _, hno⟩ | ⟨hscan, _, hno⟩
        · simp only [hscan, Option.some.injEq] at h
          exact h ▸ .attached hp ⟨hopen.1, hopen.2.1, hopen.2.2⟩
        · simp only [hscan, Option.some.injEq] at h
          exact h ▸ .spotted hp hfree hno
        · simp only [hscan, Option.some.injEq] at h
          exact h ▸ .full hp hno
      · simp [step, hp] at h
  | dup k q =>
      by_cases hk : k ∈ st.holds ∧ st.pc k.proc = .idle
      · simp only [step, hk, and_self, if_true, Option.some.injEq] at h
        exact h ▸ .dupped hk.1 hk.2
      · simp [step, hk] at h
  | close k =>
      by_cases hk : k ∈ st.holds ∧ st.pc k.proc = .idle
      · simp only [step, hk, and_self, if_true, Option.some.injEq] at h
        exact h ▸ .closed hk.1 hk.2
      · simp [step, hk] at h
  | unlink p name =>
      by_cases hp : st.pc p = .idle
      · simp only [step, hp, if_true] at h
        cases hscan : semUnlinkScan st.table name (List.finRange NSEM) none with
        | some s =>
            simp only [hscan, Option.some.injEq] at h
            exact h ▸ .found hp
        | none =>
            simp only [hscan, Option.some.injEq] at h
            exact h ▸ .notFound hp
      · simp [step, hp] at h
  | resume p =>
      cases hp : st.pc p with
      | idle => simp [step, hp] at h
      | opening spot name init maxVal =>
          simp only [step, hp, Option.some.injEq] at h
          exact h ▸ .created hp
      | unlinking name s =>
          simp only [step, hp, Option.some.injEq] at h
          exact h ▸ unlinkPass_step ⟨rfl, .inl ⟨hp, rfl⟩⟩
      | waiting name s asleep =>
          cases asleep with
          | true => simp [step, hp] at h
          | false =>
              simp only [step, hp, Option.some.injEq] at h
              exact h ▸ unlinkPass_step ⟨rfl, .inr ⟨hp, rfl⟩⟩
  | kill p =>
      simp only [step, Option.some.injEq] at h
      subst h
      apply Step.killed
      cases hp : st.pc p with
      | waiting name s b => exact .inr ⟨name, s, b, rfl, rfl⟩
      | _ => exact .inl rfl

end OsSolutions.Table
