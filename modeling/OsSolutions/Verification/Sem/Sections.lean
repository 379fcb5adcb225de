import OsSolutions.Source.Sem
import OsSolutions.Verification.String.Names
import Mathlib.Order.Fin.Basic

/-! # The critical sections one by one

Field equations of the table operations, and what the two scans of the table find. -/

namespace OsSolutions

/-! ## Writes to one slot -/

namespace STable

@[simp] theorem modify_self (t : STable) (s : Fin NSEM) (f : Sem → Sem) :
    t.modify s f s = f (t s) := by simp [modify]

theorem modify_of_ne (t : STable) {s u : Fin NSEM} (f : Sem → Sem) (h : u ≠ s) :
    t.modify s f u = t u := by simp [modify, h]

/-- A field that `f` leaves alone is the same in every slot. -/
theorem modify_field {β : Type*} (g : Sem → β) (t : STable) (s u : Fin NSEM)
    {f : Sem → Sem} (h : g (f (t s)) = g (t s)) : g (t.modify s f u) = g (t u) := by
  by_cases hu : u = s
  · subst u
    rw [modify_self, h]
  · rw [modify_of_ne t f hu]

theorem modify_apply (t : STable) (s u : Fin NSEM) (f : Sem → Sem) :
    t.modify s f u = if u = s then f (t s) else t u := by
  by_cases hu : u = s
  · subst u
    simp
  · rw [modify_of_ne t f hu, if_neg hu]

end STable

namespace Sem

section Opened

variable (x : Sem) (name : CString) (init maxVal pid : Int32)

@[simp] theorem opened_linked : (x.opened name init maxVal pid).linked = true := rfl

@[simp] theorem opened_ref : (x.opened name init maxVal pid).ref = 1 := rfl

@[simp] theorem opened_count : (x.opened name init maxVal pid).count = init := rfl

@[simp] theorem opened_maxVal : (x.opened name init maxVal pid).maxVal = maxVal := rfl

@[simp] theorem opened_waitingForDeath :
    (x.opened name init maxVal pid).waitingForDeath = false := rfl

/-- The first eight bytes keep the name, up to its NUL if that is among them. -/
theorem opened_bytes_low {i : ℕ} (hi : i < 8) (hn : i ≤ name.length) :
    (x.opened name init maxVal pid).bytes i = name.ptr i := by
  have hcopy : safestrcpy x.bytes name.ptr SEMNAME i = name.ptr i :=
    safestrcpy_get _ _ (by simp only [SEMNAME]; omega) fun j hj => CString.ptr_ne_zero (by omega)
  simpa [opened, setOwnerPid, Nat.not_le_of_lt hi] using hcopy

/-- Bytes 8 to 11 belong to `owner_pid`, whatever the name. -/
theorem opened_bytes_pid {k : ℕ} (hk : k < 4) :
    (x.opened name init maxVal pid).bytes (8 + k) = pidByte pid k := by
  have hlt : 8 + k < 12 := by omega
  simp [opened, setOwnerPid, hlt]

end Opened

theorem toNat_pidByte (pid : Int32) (k : ℕ) :
    (pidByte pid k).toNat = pid.toUInt32.toNat / 256 ^ k % 256 := by
  simp [pidByte]

theorem ownerPid_congr {x y : Sem} (h : x.bytes = y.bytes) : x.ownerPid = y.ownerPid := by
  simp only [ownerPid, h]

theorem ownerPid_setOwnerPid (x : Sem) (pid : Int32) : (x.setOwnerPid pid).ownerPid = pid := by
  have hlt : pid.toUInt32.toNat < 2 ^ 32 := pid.toUInt32.toNat_lt
  have hsum : ((x.setOwnerPid pid).bytes 8).toNat + 256 * ((x.setOwnerPid pid).bytes 9).toNat
      + 256 ^ 2 * ((x.setOwnerPid pid).bytes 10).toNat
      + 256 ^ 3 * ((x.setOwnerPid pid).bytes 11).toNat = pid.toUInt32.toNat := by
    simp [setOwnerPid, toNat_pidByte]
    omega
  rw [ownerPid, hsum, UInt32.ofNat_toNat]
  rfl

@[simp] theorem ownerPid_opened (x : Sem) (name : CString) (init maxVal pid : Int32) :
    (x.opened name init maxVal pid).ownerPid = pid :=
  ownerPid_setOwnerPid { x with bytes := safestrcpy x.bytes name.ptr SEMNAME } pid

end Sem

/-! ## References -/

theorem semdup_ref (t : STable) (s u : Fin NSEM) :
    (semdup t s u).ref = (t u).ref + if s = u then 1 else 0 := by
  unfold semdup
  rw [STable.modify_apply]
  by_cases hu : u = s
  · subst u
    simp
  · simp [hu, Ne.symm hu]

theorem semdup_linked (t : STable) (s u : Fin NSEM) : (semdup t s u).linked = (t u).linked :=
  STable.modify_field Sem.linked t s u rfl

theorem semClose_ref (t : STable) (s u : Fin NSEM) :
    ((semClose t s).1 u).ref = (t u).ref - if s = u then 1 else 0 := by
  simp only [semClose, STable.modify_apply]
  by_cases hu : u = s
  · subst u
    simp
  · simp [hu, Ne.symm hu]

theorem semClose_linked (t : STable) (s u : Fin NSEM) :
    ((semClose t s).1 u).linked = (t u).linked :=
  STable.modify_field Sem.linked t s u rfl

/-! ## The scans -/

theorem find?_finRange_eq_some {n : ℕ} (p : Fin n → Bool) (s : Fin n) :
    (List.finRange n).find? p = some s ↔ p s = true ∧ ∀ u < s, p u = false := by
  rw [List.find?_eq_some_iff_getElem]
  simp only [List.getElem_finRange, Bool.not_eq_eq_eq_not, Bool.not_true]
  refine and_congr_right fun _ => ⟨?_, ?_⟩
  · rintro ⟨i, hi, rfl, hbelow⟩ u hu
    exact hbelow u hu
  · intro hbelow
    exact ⟨s, by simp, by simp, fun j hj => hbelow ⟨j, hj.trans s.isLt⟩ hj⟩

theorem semOpenScan_eq (t : STable) (name : CString) (l : List (Fin NSEM))
    (spot : Option (Fin NSEM)) :
    semOpenScan t name l spot =
      match l.find? fun s => 0 < (t s).ref ∧ (t s).matches name with
      | some s => .attach s
      | none => .create (spot.or (l.find? fun s => (t s).linked = false)) := by
  induction l generalizing spot with
  | nil => simp [semOpenScan]
  | cons s rest ih =>
      rw [semOpenScan]
      by_cases hm : 0 < (t s).ref ∧ (t s).matches name
      · simp [hm]
      · have hm' : (decide (0 < (t s).ref ∧ (t s).matches name)) = false := by simpa using hm
        rw [if_neg hm, ih, ih, List.find?_cons, hm']
        by_cases hl : (t s).linked = false
        · cases spot <;> simp [hl]
        · simp [hl]

/-- The scan of the whole table: the first open slot of that name, or else the first free
slot, or else nothing. -/
theorem semOpenScan_cases (t : STable) (name : CString) :
    (∃ s, semOpenScan t name (List.finRange NSEM) none = .attach s ∧
      0 < (t s).ref ∧ (t s).matches name ∧
      ∀ u < s, ¬ (0 < (t u).ref ∧ (t u).matches name)) ∨
    (∃ s, semOpenScan t name (List.finRange NSEM) none = .create (some s) ∧
      (t s).linked = false ∧ (∀ u < s, (t u).linked = true) ∧
      ∀ u, ¬ (0 < (t u).ref ∧ (t u).matches name)) ∨
    (semOpenScan t name (List.finRange NSEM) none = .create none ∧
      (∀ u, (t u).linked = true) ∧ ∀ u, ¬ (0 < (t u).ref ∧ (t u).matches name)) := by
  rw [semOpenScan_eq]
  cases hopen : (List.finRange NSEM).find? fun s => decide (0 < (t s).ref ∧ (t s).matches name) with
  | some s =>
      obtain ⟨hs, hbelow⟩ := (find?_finRange_eq_some _ s).mp hopen
      simp only [decide_eq_true_eq, decide_eq_false_iff_not] at hs hbelow
      exact .inl ⟨s, rfl, hs.1, hs.2, hbelow⟩
  | none =>
      have hno : ∀ u, ¬ (0 < (t u).ref ∧ (t u).matches name) := by
        intro u
        simpa using List.find?_eq_none.mp hopen u (List.mem_finRange u)
      refine .inr ?_
      cases hfree : (List.finRange NSEM).find? fun s => decide ((t s).linked = false) with
      | some s =>
          obtain ⟨hs, hbelow⟩ := (find?_finRange_eq_some _ s).mp hfree
          exact .inl ⟨s, rfl, by simpa using hs, by simpa using hbelow, hno⟩
      | none =>
          refine .inr ⟨rfl, ?_, hno⟩
          intro u
          simpa using List.find?_eq_none.mp hfree u (List.mem_finRange u)

theorem semUnlinkScan_eq (t : STable) (name : CString) (l : List (Fin NSEM)) :
    semUnlinkScan t name l none = l.find? fun s => (t s).matches name := by
  induction l with
  | nil => rfl
  | cons s rest ih =>
      rw [semUnlinkScan, List.find?_cons]
      by_cases hm : (t s).matches name
      · cases rest <;> simp [hm, semUnlinkScan]
      · simp [hm, ih]

/-- `sem_unlink` leaves the table alone, or marks a slot and makes a pass on it. -/
theorem semUnlink_keeps {P : STable → Prop} {t : STable} (h : P t) (killed : Bool)
    (name : CString) (hpass : ∀ found, P (semUnlinkPass killed (semUnlinkMark t found) found).1) :
    P (semUnlink killed t name).1 := by
  unfold semUnlink
  split
  · exact h
  · rename_i found _
    have hfound := hpass found
    split <;> rename_i heq <;> rwa [heq] at hfound

end OsSolutions
