import OsSolutions.Model.PsCall
import OsSolutions.Verification.Ps.Listing

/-! # What one call does to the entry of a process

Only `fork` and `wait` change the pid of an entry, or whether it is in use. -/

namespace OsSolutions.Ps

open Transition

variable {t t' : Table} {a : Act} {p w : Fin NPROC}

/-- What a call has made of an entry. -/
inductive EntryChange (t t' : Table) (a : Act) (p : Fin NPROC) : Prop
  | kept (hpid : (t'.proc p).pid = (t.proc p).pid)
      (hstate : (t'.proc p).state = .unused ↔ (t.proc p).state = .unused)
      (hparent : (t.proc p).parent = none → (t'.proc p).parent = none)
  | taken (q : Fin NPROC) (kalloc copyuvm : Bool) (ha : a = .fork q kalloc copyuvm)
      (hslot : t.freeSlot = some p) (hpid : (t'.proc p).pid = t.nextpid)
      (hparent : (t'.proc p).state = .unused → (t'.proc p).parent = (t.proc p).parent)
  | gone (w : Fin NPROC) (ha : a = .wait w) (hdead : t.deadChild w = some p)
      (hpid : (t'.proc p).pid = 0) (hstate : (t'.proc p).state = .unused)
      (hparent : (t'.proc p).parent = none)

theorem EntryChange.refl (t : Table) (a : Act) (p : Fin NPROC) : EntryChange t t a p :=
  .kept rfl Iff.rfl id

/-- A write to another entry keeps this one. -/
theorem EntryChange.of_eq (h : t'.proc p = t.proc p) : EntryChange t t' a p :=
  .kept (by rw [h]) (by rw [h]) (by rw [h]; exact id)

theorem step_entry (h : step t a = some t') (p : Fin NPROC) : EntryChange t t' a p := by
  cases a with
  | fork q kalloc copyuvm =>
      simp only [step, Option.ite_none_right_eq_some, Option.some.injEq] at h
      obtain ⟨-, rfl⟩ := h
      rcases t.fork_cases q kalloc copyuvm with heq | ⟨np, hslot, heq⟩
      · rw [heq]
        exact .refl t _ p
      · by_cases hp : p = np
        · subst hp
          rcases heq with heq | ⟨name, heq⟩
          · exact .taken q kalloc copyuvm rfl hslot (by simp [heq, Table.claim])
              (by simp [heq, Table.claim])
          · exact .taken q kalloc copyuvm rfl hslot (by simp [heq, Table.claim])
              (by simp [heq, Table.claim])
        · rcases heq with heq | ⟨name, heq⟩
          · exact .of_eq (by simp [heq, Table.claim, hp])
          · exact .of_eq (by simp [heq, Table.claim, hp])
  | exit q =>
      simp only [step, Option.ite_none_right_eq_some] at h
      obtain ⟨hrun, h⟩ := h
      obtain ⟨-, rfl⟩ := Table.exit_cases h
      obtain ⟨hpid, hstate, hparent⟩ := t.reparent_entry q p
      by_cases hp : p = q
      · subst hp
        exact .kept (by simpa using hpid) (by simp [hrun]) (by simpa using hparent)
      · exact .kept (by simpa [hp] using hpid) (by simp [hp, hstate]) (by simpa [hp] using hparent)
  | wait w =>
      simp only [step, Option.ite_none_right_eq_some, Option.map_eq_some_iff] at h
      obtain ⟨-, r, hr, rfl⟩ := h
      rcases Table.wait_cases hr with heq | ⟨q, hdead, heq⟩
      · rw [heq]
        exact .refl t _ p
      · by_cases hp : p = q
        · subst hp
          exact .gone w rfl hdead (by simp [heq, Table.reaped]) (by simp [heq, Table.reaped])
            (by simp [heq, Table.reaped])
        · exact .of_eq (by simp [heq, hp])
  | exec q last =>
      simp only [step, Option.ite_none_right_eq_some, Option.some.injEq] at h
      obtain ⟨-, rfl⟩ := h
      by_cases hp : p = q
      · subst hp
        exact .kept (by simp [Table.exec]) (by simp [Table.exec]) (by simp [Table.exec])
      · exact .of_eq (by simp [Table.exec, hp])

/-- No unused entry has a parent. -/
def ParentsUsed (t : Table) : Prop := ∀ p, (t.proc p).state = .unused → (t.proc p).parent = none

theorem parentsUsed_boot : ParentsUsed Table.boot := by
  intro p _
  by_cases hp : p = Table.initproc <;> simp [Table.boot, hp]

theorem step_parentsUsed (h : ParentsUsed t) (hs : step t a = some t') : ParentsUsed t' := by
  intro p hp
  cases step_entry hs p with
  | kept _ hstate hparent => exact hparent (h p (hstate.mp hp))
  | taken _ _ _ _ hslot _ hparent =>
      rw [hparent hp]
      exact h p (Table.unused_of_freeSlot hslot)
  | gone _ _ _ _ _ hparent => exact hparent

theorem parentsUsed_of_reachable (h : Reachable step Free Table.boot t) : ParentsUsed t :=
  h.invariant parentsUsed_boot fun _ _ _ hu _ hs => step_parentsUsed hu hs

end OsSolutions.Ps
