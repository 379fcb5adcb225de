import OsSolutions.Verification.Table.Steps

/-! # Calls on the table without interference

Run section by section with nobody in between, `sem_open` and `sem_unlink` do to the table
what the whole calls `semOpen` and `semUnlink` do. -/

namespace OsSolutions.Table

open Transition

variable {P : Type*} [DecidableEq P] {st : State P} {p : P}

/-- The holds after a `sem_open` that returned `spot`. -/
def holdsAfter (st : State P) (p : P) (name : CString) : Option (Fin NSEM) → List (Hold P)
  | some s => ⟨p, s, name⟩ :: st.holds
  | none => st.holds

/-- Where an unlinker stands that got this far. -/
def unlinkerAt (name : CString) : Unlink → Pc
  | .ret _ => .idle
  | .sleep found => .waiting name found true

theorem open_alone (pid : P → Int32) (hp : st.pc p = .idle) (name : CString)
    (init maxVal : Int32) :
    ∃ n st', run (step pid) st (.open p name init maxVal :: List.replicate n (.resume p)) =
        some st' ∧
      st'.table = (semOpen st.table name init maxVal (pid p)).1 ∧
      st'.holds = holdsAfter st p name (semOpen st.table name init maxVal (pid p)).2 ∧
      st'.pc p = .idle := by
  cases hscan : semOpenScan st.table name (List.finRange NSEM) none with
  | attach s =>
      refine ⟨0, st.hold (semdup st.table s) ⟨p, s, name⟩, ?_, ?_⟩
      · simp [run_cons, step, hp, hscan, State.hold]
      · simp [semOpen, hscan, State.hold, holdsAfter, hp]
  | create spot =>
      cases spot with
      | some spot =>
          -- the second section runs at once, on the slot that the scan left free
          refine ⟨1, (st.hold (semOpenInit st.table spot name init maxVal (pid p))
            ⟨p, spot, name⟩).goto p .idle, ?_, ?_⟩
          · simp [run_cons, step, hp, hscan, State.hold, State.goto]
          · simp [semOpen, hscan, State.hold, holdsAfter]
      | none =>
          refine ⟨0, st, ?_, ?_⟩
          · simp [run_cons, step, hp, hscan]
          · simp [semOpen, hscan, holdsAfter, hp]

theorem unlinkPass_alone (st : State P) (p : P) (t : STable) (name : CString)
    (found : Fin NSEM) :
    (({ st with table := t } : State P).unlinkPass p name found).table =
        (semUnlinkPass (st.killed p) t found).1 ∧
      (({ st with table := t } : State P).unlinkPass p name found).pc p =
        match (semUnlinkPass (st.killed p) t found).2 with
        | some r => unlinkerAt name (.ret r)
        | none => unlinkerAt name (.sleep found) := by
  rcases hpass : semUnlinkPass (st.killed p) t found with ⟨u, _ | r⟩ <;>
    simp [State.unlinkPass, hpass, unlinkerAt]

theorem unlink_alone (pid : P → Int32) (hp : st.pc p = .idle) (name : CString) :
    ∃ n st', run (step pid) st (.unlink p name :: List.replicate n (.resume p)) = some st' ∧
      st'.table = (semUnlink (st.killed p) st.table name).1 ∧
      st'.pc p = unlinkerAt name (semUnlink (st.killed p) st.table name).2 := by
  cases hscan : semUnlinkScan st.table name (List.finRange NSEM) none with
  | none =>
      refine ⟨0, st, ?_, ?_⟩
      · simp [run_cons, step, hp, hscan]
      · simp [semUnlink, hscan, unlinkerAt, hp]
  | some found =>
      refine ⟨1, ({ st.goto p (.unlinking name found) with
        table := semUnlinkMark st.table found } : State P).unlinkPass p name found, ?_, ?_⟩
      · simp [run_cons, step, hp, hscan]
      · obtain ⟨htable, hpc⟩ := unlinkPass_alone (st.goto p (.unlinking name found)) p
          (semUnlinkMark st.table found) name found
        rw [htable, hpc]
        rcases hpass : semUnlinkPass (st.killed p) (semUnlinkMark st.table found) found with
          ⟨u, _ | r⟩ <;>
          simp [semUnlink, hscan, hpass, State.goto]

end OsSolutions.Table
