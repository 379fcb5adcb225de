import OsSolutions.Pointers.Count
import OsSolutions.Verification.Sem.Sections

/-! # References behind pointers

A family of cells points into the semaphore table. The table backs the cells when every
slot counts at least the pointers to it and a free slot counts none. -/

namespace OsSolutions

open Pointers

variable {ι : Type*} [Fintype ι] [DecidableEq ι]

structure Backed (t : STable) (c : ι → Option (Fin NSEM)) : Prop where
  refs : ∀ s, (count c s : ℤ) ≤ (t s).ref
  free : ∀ s, (t s).linked = false → (t s).ref = 0

/-- The same semaphore, however many references it has and whoever waits for its end. -/
structure SameSem (x y : Sem) : Prop where
  bytes : y.bytes = x.bytes
  linked : y.linked = x.linked
  count : y.count = x.count
  maxVal : y.maxVal = x.maxVal

theorem SameSem.refl (x : Sem) : SameSem x x := ⟨rfl, rfl, rfl, rfl⟩

theorem SameSem.trans {x y z : Sem} (h : SameSem x y) (k : SameSem y z) : SameSem x z :=
  ⟨k.bytes.trans h.bytes, k.linked.trans h.linked, k.count.trans h.count,
    k.maxVal.trans h.maxVal⟩

/-- A write that leaves the semaphore the same. -/
theorem SameSem.modify (t : STable) (s : Fin NSEM) {f : Sem → Sem}
    (hf : SameSem (t s) (f (t s))) (u : Fin NSEM) : SameSem (t u) (t.modify s f u) := by
  rw [STable.modify_apply]
  split
  · rename_i hu
    rwa [hu]
  · exact .refl _

theorem sameSem_semdup (t : STable) (s u : Fin NSEM) : SameSem (t u) (semdup t s u) :=
  .modify t s ⟨rfl, rfl, rfl, rfl⟩ u

theorem sameSem_semClose (t : STable) (s u : Fin NSEM) : SameSem (t u) ((semClose t s).1 u) :=
  SameSem.modify t s (f := fun x => { x with ref := x.ref - 1 }) ⟨rfl, rfl, rfl, rfl⟩ u

theorem sameSem_semUnlinkMark (t : STable) (s u : Fin NSEM) :
    SameSem (t u) (semUnlinkMark t s u) :=
  .modify t s ⟨rfl, rfl, rfl, rfl⟩ u

namespace Backed

variable {t : STable} {c : ι → Option (Fin NSEM)}

omit [DecidableEq ι] in
theorem ref_pos (h : Backed t c) {i : ι} {s : Fin NSEM} (hi : c i = some s) :
    0 < (t s).ref := by
  have hpos := count_pos hi
  have hle := h.refs s
  omega

omit [DecidableEq ι] in
theorem count_eq_zero (h : Backed t c) {s : Fin NSEM} (hr : (t s).ref = 0) :
    count c s = 0 := by
  have hle := h.refs s
  omega

/-! ## Writes to the cells -/

/-- A new pointer to a slot with a reference to spare. -/
theorem point (h : Backed t c) (i : ι) {s : Fin NSEM}
    (hroom : (count c s : ℤ) + 1 ≤ (t s).ref) : Backed t (Function.update c i (some s)) := by
  refine ⟨?_, h.free⟩
  intro u
  have hle := count_update_le c i (some s) u
  have hu := h.refs u
  by_cases hsu : s = u
  · subst hsu
    simp only [if_true] at hle
    omega
  · simp only [Option.some.injEq, hsu, if_false] at hle
    omega

/-! ## Sections of the table -/

omit [DecidableEq ι] in
/-- References and free slots are as before. -/
theorem congr (h : Backed t c) {t' : STable} (href : ∀ s, (t' s).ref = (t s).ref)
    (hfree : ∀ s, (t' s).linked = false → (t s).linked = false ∨ (t s).ref = 0) :
    Backed t' c := by
  constructor
  · intro s
    rw [href]
    exact h.refs s
  · intro s hs
    rw [href]
    exact (hfree s hs).elim (h.free s) id

omit [DecidableEq ι] in
theorem semdup (h : Backed t c) {s : Fin NSEM} (hpos : 0 < (t s).ref) :
    Backed (semdup t s) c ∧ (count c s : ℤ) + 1 ≤ (OsSolutions.semdup t s s).ref := by
  refine ⟨⟨?_, ?_⟩, ?_⟩
  · intro u
    have hu := h.refs u
    rw [semdup_ref]
    split <;> omega
  · intro u hu
    rw [semdup_linked] at hu
    have hzero := h.free u hu
    have hsu : s ≠ u := by
      intro heq
      subst heq
      omega
    simp [semdup_ref, hzero, hsu]
  · have hs := h.refs s
    simp only [semdup_ref, if_true]
    omega

/-- A pointer is dropped together with its reference. -/
theorem semClose (h : Backed t c) {i : ι} {s : Fin NSEM} (hi : c i = some s) :
    Backed (semClose t s).1 (Function.update c i none) := by
  constructor
  · intro u
    have hcount := count_update c i none u
    have hu := h.refs u
    simp only [hi, Option.some.injEq] at hcount
    rw [semClose_ref]
    split <;> rename_i hsu <;> simp [hsu] at hcount <;> omega
  · intro u hu
    rw [semClose_linked] at hu
    have hzero := h.free u hu
    have hsu : s ≠ u := by
      intro heq
      subst heq
      have := h.ref_pos hi
      omega
    simp [semClose_ref, hzero, hsu]

omit [DecidableEq ι] in
theorem semOpenInit (h : Backed t c) {spot : Fin NSEM} (hfree : (t spot).linked = false)
    (name : CString) (init maxVal pid : Int32) :
    Backed (semOpenInit t spot name init maxVal pid) c := by
  have hzero := h.count_eq_zero (h.free spot hfree)
  constructor
  · intro u
    rw [OsSolutions.semOpenInit, STable.modify_apply]
    split
    · rename_i hu
      simp [hu, hzero]
    · exact h.refs u
  · intro u hu
    rw [OsSolutions.semOpenInit, STable.modify_apply] at hu ⊢
    split
    · rename_i hus
      simp [hus] at hu
    · rename_i hus
      rw [if_neg hus] at hu
      exact h.free u hu

omit [DecidableEq ι] in
/-- `sem_open` returns a slot with a reference to spare. -/
theorem semOpen (h : Backed t c) (name : CString) (init maxVal pid : Int32) :
    Backed (semOpen t name init maxVal pid).1 c ∧
      ∀ s, (OsSolutions.semOpen t name init maxVal pid).2 = some s →
        (count c s : ℤ) + 1 ≤ ((OsSolutions.semOpen t name init maxVal pid).1 s).ref := by
  rcases semOpenScan_cases t name with
    ⟨s, hscan, hpos, _⟩ | ⟨s, hscan, hfree, _⟩ | ⟨hscan, _⟩
  · simp only [OsSolutions.semOpen, hscan, Option.some.injEq]
    refine ⟨(h.semdup hpos).1, ?_⟩
    rintro u rfl
    exact (h.semdup hpos).2
  · simp only [OsSolutions.semOpen, hscan, Option.some.injEq]
    refine ⟨h.semOpenInit hfree name init maxVal pid, ?_⟩
    rintro u rfl
    have hzero := h.count_eq_zero (h.free s hfree)
    simp [OsSolutions.semOpenInit, hzero]
  · simp only [OsSolutions.semOpen, hscan]
    exact ⟨h, fun u hu => by cases hu⟩

omit [DecidableEq ι] in
theorem semUnlinkMark (h : Backed t c) (found : Fin NSEM) :
    Backed (semUnlinkMark t found) c := by
  apply h.congr
  · exact fun s => STable.modify_field Sem.ref t found s rfl
  · exact fun s hs => .inl ((STable.modify_field Sem.linked t found s rfl).symm.trans hs)

omit [DecidableEq ι] in
theorem semUnlinkPass (h : Backed t c) (killed : Bool) (found : Fin NSEM) :
    Backed (semUnlinkPass killed t found).1 c := by
  unfold OsSolutions.semUnlinkPass
  split
  · rename_i hr
    apply h.congr
    · exact fun s => STable.modify_field Sem.ref t found s rfl
    · intro s hs
      by_cases hsf : s = found
      · subst hsf
        exact .inr hr
      · simp only [STable.modify_of_ne _ _ hsf] at hs
        exact .inl hs
  · split <;> exact h

omit [DecidableEq ι] in
theorem semUnlink (h : Backed t c) (killed : Bool) (name : CString) :
    Backed (semUnlink killed t name).1 c :=
  semUnlink_keeps (P := fun t => Backed t c) h killed name fun found =>
    (h.semUnlinkMark found).semUnlinkPass killed found

/-! ## Slots in use stay the same -/

omit [DecidableEq ι] in
/-- A slot with pointers is not initialised again. -/
theorem sameSem_semOpen (h : Backed t c) (name : CString) (init maxVal pid : Int32)
    {s : Fin NSEM} (hs : 0 < count c s) :
    SameSem (t s) ((OsSolutions.semOpen t name init maxVal pid).1 s) := by
  rcases semOpenScan_cases t name with
    ⟨u, hscan, _⟩ | ⟨u, hscan, hfree, _⟩ | ⟨hscan, _⟩
  · simp only [OsSolutions.semOpen, hscan]
    exact sameSem_semdup t u s
  · simp only [OsSolutions.semOpen, hscan]
    have hsu : s ≠ u := by
      intro heq
      subst heq
      have := h.count_eq_zero (h.free s hfree)
      omega
    rw [OsSolutions.semOpenInit, STable.modify_of_ne _ _ hsu]
    exact .refl _
  · simp only [OsSolutions.semOpen, hscan]
    exact .refl _

omit [DecidableEq ι] in
/-- A slot with pointers is not freed. -/
theorem sameSem_semUnlinkPass (h : Backed t c) (killed : Bool) (found : Fin NSEM)
    {s : Fin NSEM} (hs : 0 < count c s) :
    SameSem (t s) ((OsSolutions.semUnlinkPass killed t found).1 s) := by
  unfold OsSolutions.semUnlinkPass
  split
  · rename_i hr
    have hsf : s ≠ found := by
      intro heq
      subst heq
      have := h.count_eq_zero hr
      omega
    simp only [STable.modify_of_ne _ _ hsf]
    exact .refl _
  · split <;> exact .refl _

omit [DecidableEq ι] in
theorem sameSem_semUnlink (h : Backed t c) (killed : Bool) (name : CString) {s : Fin NSEM}
    (hs : 0 < count c s) : SameSem (t s) ((OsSolutions.semUnlink killed t name).1 s) :=
  semUnlink_keeps (P := fun u => SameSem (t s) (u s)) (.refl _) killed name fun found =>
    (sameSem_semUnlinkMark t found s).trans
      ((h.semUnlinkMark found).sameSem_semUnlinkPass killed found hs)

end Backed

end OsSolutions
