import OsSolutions.Verification.Ps.Listing

/-! # The buffer of `get_proc_data`

`argptr` has checked one `struct proc_data`, whose array ends at `MAX_CHILDREN`. The loop of
`getchildrenpid` does not know of it. -/

namespace OsSolutions.Ps

open Transition

variable {t : Table} {p : Fin NPROC} {pid : Int32}

/-- Writing `r` over `data` changes nothing behind `name` and `pids`, and leaves no larger number
of children than there is room for, unless nothing is written at all. -/
structure Inside (data r : ProcData) : Prop where
  name : ∀ i ≥ 16, r.name i = data.name i
  pids : ∀ i ≥ MAX_CHILDREN, r.pids i = data.pids i
  chldNum : r = data ∨ r.chldNum.toNat ≤ MAX_CHILDREN

theorem Inside.refl (data : ProcData) : Inside data data :=
  ⟨fun _ _ => rfl, fun _ _ => rfl, .inl rfl⟩

/-- The call writes to the memory of its buffer only. -/
def StaysInside (t : Table) (pid : Int32) : Prop :=
  ∀ data, Inside data (t.sysGetProcData true pid data).1

/-! ## What is written -/

/-- `strncpy` writes `n` bytes. -/
theorem strncpyLoop_frame (s t : Bytes) (i n j : ℕ) (hj : i + n ≤ j) :
    strncpyLoop s t i n j = s j := by
  induction n generalizing s i with
  | zero => rfl
  | succ n ih =>
      rw [strncpyLoop]
      split
      · rw [ih _ _ (by omega), Function.update_of_ne (by omega)]
      · rw [strncpyFill_apply, if_neg (by omega), Function.update_of_ne (by omega)]

theorem getchildrenpid_frame (hfind : t.getprocbypid pid = some p) (mem : ℕ → UInt32) {i : ℕ}
    (hi : (t.children p).length ≤ i) : (t.getchildrenpid pid mem).1 i = mem i := by
  obtain ⟨-, hframe, -⟩ := foldl_childrenTurn t (some p) (List.finRange NPROC) mem 0
  rw [Table.getchildrenpid, hfind]
  exact hframe i (.inr ((Nat.zero_add _).trans_le hi))

/-! ## The condition -/

theorem staysInside_of_few (h : ∀ p, t.getprocbypid pid = some p → (t.proc p).state ≠ .unused →
    (t.children p).length ≤ MAX_CHILDREN) : StaysInside t pid := by
  intro data
  cases hfind : t.getprocbypid pid with
  | none =>
      simp only [Table.sysGetProcData, hfind, if_true]
      exact .refl data
  | some p =>
      by_cases hp : (t.proc p).state = .unused
      · simp only [Table.sysGetProcData, hfind, hp, if_true]
        exact .refl data
      · have hfew := h p hfind hp
        rw [sysGetProcData_found t hfind hp]
        refine ⟨?_, ?_, .inr ?_⟩
        · exact fun i hi => strncpyLoop_frame _ _ 0 16 i ((Nat.zero_add 16).trans_le hi)
        · exact fun i hi => getchildrenpid_frame hfind data.pids (hfew.trans hi)
        · exact (toNat_children_length t p).trans_le hfew

/-- The number of children that is stored tells whether there was room for them. -/
theorem StaysInside.few (h : StaysInside t pid) (hfind : t.getprocbypid pid = some p)
    (hp : (t.proc p).state ≠ .unused) : (t.children p).length ≤ MAX_CHILDREN := by
  let data : ProcData := ⟨0, fun _ => 0, UInt32.ofNat (t.children p).length + 1, fun _ => 0⟩
  rcases (h data).chldNum with hsame | hle
  · rw [sysGetProcData_found t hfind hp] at hsame
    have hcount : UInt32.ofNat (t.children p).length = UInt32.ofNat (t.children p).length + 1 :=
      congrArg ProcData.chldNum hsame
    exact absurd hcount (by simp)
  · rw [sysGetProcData_found t hfind hp] at hle
    exact (toNat_children_length t p).symm.trans_le hle

/-- The call stays inside the buffer exactly when the process that it finds has no more than
`MAX_CHILDREN` children. -/
theorem staysInside_iff (t : Table) (pid : Int32) :
    StaysInside t pid ↔ ∀ p, t.getprocbypid pid = some p → (t.proc p).state ≠ .unused →
      (t.children p).length ≤ MAX_CHILDREN :=
  ⟨fun h _ hfind hp => h.few hfind hp, staysInside_of_few⟩

/-- From boot on, `initproc` forks eleven times, and somebody asks for its data. -/
theorem eleven_children_overflow :
    ∃ t, run step Table.boot (List.replicate 11 (.fork 0 true true)) = some t ∧
      ¬StaysInside t 1 := by
  have hrun : (run step Table.boot (List.replicate 11 (.fork 0 true true))).map
      (fun t => (decide (t.getprocbypid 1 = some 0 ∧ (t.proc 0).state ≠ .unused),
        (t.children 0).length)) = some (true, 11) := by decide +kernel
  obtain ⟨t, ht, hres⟩ := Option.map_eq_some_iff.mp hrun
  rw [Prod.mk.injEq, decide_eq_true_eq] at hres
  refine ⟨t, ht, ?_⟩
  intro h
  have hle := h.few hres.1.1 hres.1.2
  rw [hres.2] at hle
  exact absurd hle (by decide)

end OsSolutions.Ps
