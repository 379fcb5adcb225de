import OsSolutions.Verification.Table.Steps
import OsSolutions.Verification.Sem.Naming

/-! # References and holds

A reference is added and dropped together with a hold by every section but one: the second
section of `sem_open` stores one, whatever happened to the slot since it was found free. -/

namespace OsSolutions.Table

open Transition

variable {P : Type*} [DecidableEq P] {pid : P → Int32} {st st' : State P} {a : Act P}

/-! ## Counting holds -/

def held (holds : List (Hold P)) (s : Fin NSEM) : ℕ := holds.countP fun h => h.slot = s

omit [DecidableEq P] in
@[simp] theorem held_cons (h : Hold P) (holds : List (Hold P)) (s : Fin NSEM) :
    held (h :: holds) s = held holds s + if h.slot = s then 1 else 0 := by
  simp [held, List.countP_cons]

theorem held_erase {h : Hold P} {holds : List (Hold P)} (hh : h ∈ holds) (s : Fin NSEM) :
    held holds s = held (holds.erase h) s + if h.slot = s then 1 else 0 := by
  rw [held, (List.perm_cons_erase hh).countP_eq]
  exact held_cons h (holds.erase h) s

omit [DecidableEq P] in
theorem held_pos {h : Hold P} {holds : List (Hold P)} (hh : h ∈ holds) :
    0 < held holds h.slot :=
  List.countP_pos_iff.mpr ⟨h, hh, by simp⟩

omit [DecidableEq P] in
theorem exists_of_held_pos {holds : List (Hold P)} {s : Fin NSEM} (hs : 0 < held holds s) :
    ∃ h ∈ holds, h.slot = s := by
  simpa using List.countP_pos_iff.mp hs

/-! ## Reference counts -/

structure Counted (st : State P) : Prop where
  ref_eq : ∀ s, (st.table s).ref = held st.holds s
  free : ∀ s, (st.table s).linked = false → (st.table s).ref = 0

/-- A slot about to be initialised has no reference. -/
def InitFree (st : State P) : Act P → Prop
  | .resume p => ∀ spot name init maxVal, st.pc p = .opening spot name init maxVal →
      (st.table spot).ref = 0
  | _ => True

omit [DecidableEq P] in
theorem Counted.ref_pos (h : Counted st) {k : Hold P} (hk : k ∈ st.holds) :
    0 < (st.table k.slot).ref := by
  have := held_pos hk
  rw [h.ref_eq]
  omega

omit [DecidableEq P] in
/-- Nothing happens to references and holds. -/
theorem Counted.congr (h : Counted st) (hholds : st'.holds = st.holds)
    (href : ∀ s, (st'.table s).ref = (st.table s).ref)
    (hlinked : ∀ s, (st'.table s).linked = false →
      (st.table s).linked = false ∨ (st.table s).ref = 0) : Counted st' := by
  constructor
  · intro s
    rw [href, hholds]
    exact h.ref_eq s
  · intro s hs
    rw [href]
    exact (hlinked s hs).elim (h.free s) id

theorem Counted.goto (h : Counted st) (p : P) (c : Pc) : Counted (st.goto p c) :=
  h.congr rfl (fun _ => rfl) fun _ => .inl

omit [DecidableEq P] in
/-- One more reference on an open slot, with its hold. -/
theorem Counted.hold (h : Counted st) {k : Hold P} {s : Fin NSEM} (hks : k.slot = s)
    (hpos : 0 < (st.table s).ref) : Counted (st.hold (semdup st.table s) k) := by
  subst s
  constructor
  · intro s
    simp only [State.hold, semdup_ref, held_cons, h.ref_eq s]
    split <;> simp
  · intro s hs
    simp only [State.hold, semdup_linked] at hs
    have hzero := h.free s hs
    have hne : k.slot ≠ s := by
      intro heq
      subst heq
      omega
    simp [State.hold, semdup_ref, hzero, hne]

theorem Counted.close (h : Counted st) {k : Hold P} (hk : k ∈ st.holds) {wake : Bool} :
    Counted (({ st with
      table := (semClose st.table k.slot).1, holds := st.holds.erase k } : State P).wakeIf
        wake) := by
  constructor
  · intro s
    have hs := h.ref_eq s
    rw [held_erase hk s] at hs
    simp only [State.wakeIf_table, State.wakeIf_holds, semClose_ref, hs]
    split <;> simp
  · intro s hs
    simp only [State.wakeIf_table, semClose_linked] at hs
    have hzero := h.free s hs
    have hne : k.slot ≠ s := by
      intro heq
      subst heq
      have := h.ref_pos hk
      omega
    simp [semClose_ref, hzero, hne]

omit [DecidableEq P] in
/-- The second section of `sem_open` sets the count right exactly when it was zero. -/
theorem Counted.created_iff (h : Counted st) (p : P) (spot : Fin NSEM) (name : CString)
    (init maxVal pid : Int32) :
    Counted (st.hold (semOpenInit st.table spot name init maxVal pid) ⟨p, spot, name⟩) ↔
      (st.table spot).ref = 0 := by
  constructor
  · intro h'
    have hs := h'.ref_eq spot
    have hold := h.ref_eq spot
    simp [State.hold, semOpenInit] at hs
    omega
  · intro hzero
    constructor
    · intro s
      have hs := h.ref_eq s
      simp only [State.hold, semOpenInit, STable.modify_apply, held_cons]
      by_cases hsp : s = spot
      · subst s
        simp
        omega
      · simp [hsp, Ne.symm hsp, hs]
    · intro s hs
      simp only [State.hold, semOpenInit, STable.modify_apply] at hs ⊢
      by_cases hsp : s = spot
      · simp [hsp] at hs
      · simp only [hsp, if_false] at hs ⊢
        exact h.free s hs

omit [DecidableEq P] in
theorem Passes.field_eq {p : P} {name : CString} {s : Fin NSEM} {t : STable}
    (h : Passes st a p name s t) {β : Type*} (g : Sem → β)
    (hg : ∀ x : Sem, g { x with waitingForDeath := true } = g x) (u : Fin NSEM) :
    g (t u) = g (st.table u) := by
  rcases h.2 with ⟨_, rfl⟩ | ⟨_, rfl⟩
  · exact STable.modify_field g st.table s u (hg _)
  · rfl

omit [DecidableEq P] in
theorem initFree_of_passes {p : P} {name : CString} {s : Fin NSEM} {t : STable}
    (h : Passes st a p name s t) : InitFree st a := by
  obtain ⟨rfl, hp⟩ := h
  intro spot name init maxVal hpc
  rcases hp with ⟨hp, _⟩ | ⟨hp, _⟩ <;> rw [hp] at hpc <;> cases hpc

omit [DecidableEq P] in
/-- The mark does not touch references. -/
theorem Counted.passes (h : Counted st) {p : P} {name : CString} {s : Fin NSEM} {t : STable}
    (hp : Passes st a p name s t) : Counted ({ st with table := t } : State P) := by
  refine h.congr rfl (hp.field_eq Sem.ref fun _ => rfl) ?_
  intro u hu
  rw [← hp.field_eq Sem.linked fun _ => rfl]
  exact .inl hu

omit [DecidableEq P] in
theorem Counted.unlink {t : STable} (h : Counted ({ st with table := t } : State P))
    {s : Fin NSEM} (hr : (t s).ref = 0) :
    Counted ({ st with table := t.modify s fun x => { x with linked := false } } : State P) := by
  refine h.congr rfl (fun u => STable.modify_field Sem.ref t s u rfl) ?_
  intro u hu
  by_cases hus : u = s
  · subst u
    exact .inr hr
  · simp only [STable.modify_of_ne _ _ hus] at hu
    exact .inl hu

theorem step_counted_iff (h : Counted st) (hs : step pid st a = some st') :
    Counted st' ↔ InitFree st a := by
  cases step_cases hs with
  | attached hp hopen => exact iff_of_true (h.hold rfl hopen.held) trivial
  | spotted => exact iff_of_true (h.goto _ _) trivial
  | full => exact iff_of_true h trivial
  | @created p spot name init maxVal hp =>
      have hfree : InitFree st (.resume p) ↔ (st.table spot).ref = 0 := by
        constructor
        · exact fun hok => hok spot name init maxVal hp
        · intro hzero _ _ _ _ hpc
          cases hp.symm.trans hpc
          exact hzero
      rw [hfree, ← h.created_iff p spot name init maxVal (pid p)]
      exact ⟨fun h' => h'.congr rfl (fun _ => rfl) fun _ => .inl, fun h' => h'.goto _ _⟩
  | dupped hk hp => exact iff_of_true (h.hold rfl (h.ref_pos hk)) trivial
  | closed hk hp => exact iff_of_true (h.close hk) trivial
  | found => exact iff_of_true (h.goto _ _) trivial
  | notFound => exact iff_of_true h trivial
  | unlinked hp hr =>
      exact iff_of_true (((h.passes hp).unlink hr).goto _ _) (initFree_of_passes hp)
  | givenUp hp => exact iff_of_true ((h.passes hp).goto _ _) (initFree_of_passes hp)
  | sleeps hp => exact iff_of_true ((h.passes hp).goto _ _) (initFree_of_passes hp)
  | killed => exact iff_of_true (h.congr rfl (fun _ => rfl) fun _ => .inl) trivial

/-! ## Names -/

/-- Two holds on one slot were opened under one name. -/
def SameName (st : State P) : Prop :=
  ∀ h ∈ st.holds, ∀ k ∈ st.holds, h.slot = k.slot → h.name = k.name

/-- A scan does not end on a slot held under another name: a held slot that answers to the
name all the same, as slots with names of eight characters and more may, stands behind an
open slot that answers too. -/
def NamesApart (st : State P) : Act P → Prop
  | .open _ name _ _ => ∀ h ∈ st.holds, h.name ≠ name →
      Sem.AnswersTo h.name (st.table h.slot).ownerPid name →
        ∃ u < h.slot, 0 < (st.table u).ref ∧ (st.table u).matches name
  | _ => True

/-- A held slot still reads as it was written. -/
def Legible (st : State P) : Prop :=
  ∀ h ∈ st.holds, ∀ name, (st.table h.slot).matches name ↔
    Sem.AnswersTo h.name (st.table h.slot).ownerPid name

/-- References are counted, and the holds on one slot share its name. -/
def Owned (st : State P) : Prop := Counted st ∧ SameName st

def Respects (st : State P) (a : Act P) : Prop := InitFree st a ∧ NamesApart st a

omit [DecidableEq P] in
theorem sameName_hold (h : SameName st) (t : STable) (k : Hold P) :
    SameName (st.hold t k) ↔ ∀ g ∈ st.holds, g.slot = k.slot → g.name = k.name := by
  constructor
  · intro h' g hg hslot
    exact h' g (by simp [State.hold, hg]) k (by simp [State.hold]) hslot
  · intro h' g hg f hf hslot
    simp only [State.hold, List.mem_cons] at hg hf
    rcases hg with rfl | hg
    · rcases hf with rfl | hf
      · rfl
      · exact (h' f hf hslot.symm).symm
    · rcases hf with rfl | hf
      · exact h' g hg hslot
      · exact h g hg f hf hslot

omit [DecidableEq P] in
theorem SameName.of_subset (h : SameName st) (hsub : ∀ k ∈ st'.holds, k ∈ st.holds) :
    SameName st' :=
  fun k hk g hg => h k (hsub k hk) g (hsub g hg)

omit [DecidableEq P] in
theorem Legible.congr (h : Legible st) (hsub : ∀ k ∈ st'.holds, k ∈ st.holds)
    (hbytes : ∀ s, (st'.table s).bytes = (st.table s).bytes) : Legible st' := by
  intro k hk name
  have hm : (st'.table k.slot).matches name = (st.table k.slot).matches name := by
    simp only [Sem.matches, hbytes]
  rw [hm, Sem.ownerPid_congr (hbytes k.slot)]
  exact h k (hsub k hk) name

omit [DecidableEq P] in
theorem Legible.answers (hl : Legible st) {k : Hold P} (hk : k ∈ st.holds) {name : CString}
    (ha : Sem.AnswersTo k.name (st.table k.slot).ownerPid name) (hc : Counted st) :
    0 < (st.table k.slot).ref ∧ (st.table k.slot).matches name :=
  ⟨hc.ref_pos hk, (hl k hk name).mpr ha⟩

omit [DecidableEq P] in
/-- A scan that attaches to `s` sees the names of the holds on `s`. -/
theorem attached_iff (hc : Counted st) (hl : Legible st) {p : P} {name : CString}
    {init maxVal : Int32} {s : Fin NSEM} (hopen : FirstOpen st.table name s) :
    (∀ g ∈ st.holds, g.slot = s → g.name = name) ↔
      NamesApart st (.open p name init maxVal) := by
  constructor
  · intro hname k hk hne ha
    have hks : k.slot ≠ s := fun hslot => hne (hname k hk hslot)
    have hbelow : ¬ k.slot < s := fun hlt => hopen.first k.slot hlt (hl.answers hk ha hc)
    have hlt : s < k.slot := lt_of_le_of_ne (not_lt.mp hbelow) (Ne.symm hks)
    exact ⟨s, hlt, hopen.held, hopen.answers⟩
  · intro hok g hg hslot
    by_contra hne
    subst hslot
    obtain ⟨u, hu, hopen'⟩ := hok g hg hne ((hl g hg name).mp hopen.answers)
    exact hopen.first u hu hopen'

omit [DecidableEq P] in
theorem namesApart_of_none (hc : Counted st) (hl : Legible st) {p : P} {name : CString}
    {init maxVal : Int32} (hno : ∀ s, ¬ (0 < (st.table s).ref ∧ (st.table s).matches name)) :
    NamesApart st (.open p name init maxVal) :=
  fun k hk _ ha => absurd (hl.answers hk ha hc) (hno k.slot)

omit [DecidableEq P] in
theorem namesApart_of_passes {p : P} {name : CString} {s : Fin NSEM} {t : STable}
    (h : Passes st a p name s t) : NamesApart st a := by
  rw [h.1]
  trivial

omit [DecidableEq P] in
/-- No hold is on a slot without references. -/
theorem Counted.slot_ne (h : Counted st) {s : Fin NSEM} (hzero : (st.table s).ref = 0)
    {k : Hold P} (hk : k ∈ st.holds) : k.slot ≠ s := by
  intro heq
  subst heq
  have := h.ref_pos hk
  omega

theorem step_sameName_iff (hc : Counted st) (hl : Legible st) (h : SameName st)
    (hok : InitFree st a) (hs : step pid st a = some st') :
    SameName st' ↔ NamesApart st a := by
  cases step_cases hs with
  | attached hp hopen =>
      rw [sameName_hold h]
      exact attached_iff hc hl hopen
  | spotted hp hfree hno => exact iff_of_true h (namesApart_of_none hc hl hno)
  | full hp hno => exact iff_of_true h (namesApart_of_none hc hl hno)
  | @created p spot name init maxVal hp =>
      have hsame : SameName (st.hold (semOpenInit st.table spot name init maxVal (pid p))
          ⟨p, spot, name⟩) := by
        rw [sameName_hold h]
        intro g hg hslot
        exact absurd hslot (hc.slot_ne (hok spot name init maxVal hp) hg)
      exact iff_of_true hsame trivial
  | @dupped k q hk =>
      refine iff_of_true ?_ trivial
      rw [sameName_hold h]
      exact fun g hg hslot => h g hg k hk hslot
  | closed hk =>
      refine iff_of_true (h.of_subset ?_) trivial
      intro g hg
      rw [State.wakeIf_holds] at hg
      exact List.mem_of_mem_erase hg
  | found => exact iff_of_true h trivial
  | notFound => exact iff_of_true h trivial
  | unlinked hp => exact iff_of_true h (namesApart_of_passes hp)
  | givenUp hp => exact iff_of_true h (namesApart_of_passes hp)
  | sleeps hp => exact iff_of_true h (namesApart_of_passes hp)
  | killed => exact iff_of_true h trivial

theorem step_owned_iff (hl : Legible st) (h : Owned st) (hs : step pid st a = some st') :
    Owned st' ↔ Respects st a := by
  unfold Owned Respects
  rw [step_counted_iff h.1 hs]
  exact and_congr_right fun hok => step_sameName_iff h.1 hl h.2 hok hs

omit [DecidableEq P] in
theorem Legible.hold (hl : Legible st) {t : STable}
    (hbytes : ∀ s, (t s).bytes = (st.table s).bytes) {g k : Hold P} (hg : g ∈ st.holds)
    (hslot : k.slot = g.slot) (hname : k.name = g.name) : Legible (st.hold t k) := by
  intro f hf name
  have hm : ∀ s, (t s).matches name = (st.table s).matches name := by
    intro s
    simp only [Sem.matches, hbytes]
  simp only [State.hold, hm, Sem.ownerPid_congr (hbytes _)]
  rcases List.mem_cons.mp hf with rfl | hf
  · rw [hslot, hname]
    exact hl g hg name
  · exact hl f hf name

theorem step_legible (hl : Legible st) (h : Owned st) (hok : Respects st a)
    (hs : step pid st a = some st') : Legible st' := by
  have hdup : ∀ s u, (semdup st.table s u).bytes = (st.table u).bytes :=
    fun s u => STable.modify_field Sem.bytes st.table s u rfl
  cases step_cases hs with
  | attached hp hopen =>
      have hpos := hopen.held
      rw [h.1.ref_eq] at hpos
      obtain ⟨g, hg, rfl⟩ := exists_of_held_pos (Int.natCast_pos.mp hpos)
      have hname := (attached_iff h.1 hl hopen).mpr hok.2 g hg rfl
      exact hl.hold (hdup _) hg rfl hname.symm
  | spotted => exact hl.congr (fun _ hk => hk) fun _ => rfl
  | full => exact hl
  | @created p spot name init maxVal hp =>
      intro k hk n
      rcases List.mem_cons.mp hk with rfl | hk
      · simp only [State.goto_table, State.hold, semOpenInit, STable.modify_self,
          Sem.ownerPid_opened]
        exact Sem.opened_matches_iff _ init maxVal (pid p) name n
      · have hne := h.1.slot_ne (hok.1 spot name init maxVal hp) hk
        simp only [State.goto_table, State.hold, semOpenInit, STable.modify_of_ne _ _ hne]
        exact hl k hk n
  | dupped hk => exact hl.hold (hdup _) hk rfl rfl
  | @closed k hk =>
      refine hl.congr ?_ ?_
      · intro g hg
        rw [State.wakeIf_holds] at hg
        exact List.mem_of_mem_erase hg
      · intro s
        rw [State.wakeIf_table]
        exact STable.modify_field Sem.bytes st.table k.slot s rfl
  | found => exact hl.congr (fun _ hk => hk) fun _ => rfl
  | notFound => exact hl
  | @unlinked _ p name s t hp =>
      refine hl.congr (fun _ hk => hk) ?_
      intro u
      rw [← hp.field_eq Sem.bytes fun _ => rfl]
      exact STable.modify_field Sem.bytes t s u rfl
  | givenUp hp => exact hl.congr (fun _ hk => hk) (hp.field_eq Sem.bytes fun _ => rfl)
  | sleeps hp => exact hl.congr (fun _ hk => hk) (hp.field_eq Sem.bytes fun _ => rfl)
  | killed => exact hl.congr (fun _ hk => hk) fun _ => rfl

omit [DecidableEq P] in
theorem counted_start : Counted (start : State P) := ⟨fun _ => rfl, fun _ _ => rfl⟩

/-- Along a run of any processes, references are counted and the holds of a slot share its
name exactly when every slot is initialised without references and no scan ends on a slot
held under another name. -/
theorem always_owned_iff (pid : P → Int32) (acts : List (Act P)) :
    Always (step pid) Owned start acts ↔ Meets (step pid) Respects start acts := by
  apply always_iff_meets_of (I := Legible)
  · exact fun st a st' hl h hs => step_owned_iff hl h hs
  · exact fun st a st' hl h hok hs => step_legible hl h hok hs
  · exact fun h hh => absurd hh (by simp [start])
  · exact ⟨counted_start, fun h hh => absurd hh (by simp [start])⟩

/-- Two processes find slot 0 free before either of them initialises it: both get it, for
different names, and it counts one reference. -/
theorem semOpen_spot_taken_twice :
    ∃ st : State (Fin 2),
      run (step fun p => if p = 0 then 1 else 2) start
        [.open 0 ⟨[97], by decide⟩ 1 1, .open 1 ⟨[98], by decide⟩ 1 1, .resume 0, .resume 1] =
          some st ∧
      (∀ p, st.pc p = .idle) ∧ (st.table 0).ref = 1 ∧
      st.holds = [⟨1, 0, ⟨[98], by decide⟩⟩, ⟨0, 0, ⟨[97], by decide⟩⟩] ∧ ¬ Owned st :=
  ⟨_, rfl, by decide, by decide, by decide, fun h => absurd (h.1.ref_eq 0) (by decide)⟩

end OsSolutions.Table
