import OsSolutions.Verification.ProdCons.Descriptors

/-! # Opening on a free table

When every slot is free and closed, the opens of `main` take the first five slots in order,
whatever names and flags are left over in them. -/

namespace OsSolutions.ProdCons

open Transition

variable {main : Main} {clean : Prop} {st st' : State main} {a : Act main} {p : Proc main}

def AllFree (t : STable) : Prop := ∀ s, (t s).linked = false ∧ (t s).ref = 0

/-- Where the semaphores are, and that nobody else has one. -/
structure Tidy (st : State main) : Prop where
  placed : ∀ sd s, st.opened sd = some s → s.val = sd.val
  spare : ∀ u, (∀ sd, st.opened sd ≠ some u) → (st.table u).linked = false ∧ (st.table u).ref = 0

/-- After the opens only a copy or a close changes references, and then of a semaphore that is
open. No slot is linked any more. -/
theorem step_keeps_slot (hs : Step st a st')
    (hn : ∀ ds, st.pc none ≠ .semOpen ds) (hat : ∀ p sd, st.pc p = .semOpen sd → p = none) :
    st'.opened = st.opened ∧ ∀ u, ((st'.table u).linked = (st.table u).linked ∨
      (st'.table u).linked = false) ∧
        ((∀ p sd, st.osem p sd ≠ some u) → (st'.table u).ref = (st.table u).ref) := by
  cases hs with
  | moved hm => exact ⟨rfl, fun u => ⟨.inl rfl, fun _ => rfl⟩⟩
  | @opened p sd hp =>
      obtain rfl := hat p sd hp
      exact absurd hp (hn sd)
  | @copied p i s k hp hi hs =>
      refine ⟨rfl, fun u => ⟨.inl (semdup_linked st.table s u), fun hu => ?_⟩⟩
      have hne : s ≠ u := fun heq => hu p k (heq ▸ hs)
      show (OsSolutions.semdup st.table s u).ref = _
      simp [semdup_ref, hne]
  | copiedNone => exact ⟨rfl, fun u => ⟨.inl rfl, fun _ => rfl⟩⟩
  | forked => exact ⟨rfl, fun u => ⟨.inl rfl, fun _ => rfl⟩⟩
  | @closed p sd next s hcl hs =>
      refine ⟨rfl, fun u => ⟨.inl (semClose_linked st.table s u), fun hu => ?_⟩⟩
      have hne : s ≠ u := fun heq => hu p sd (heq ▸ hs)
      show ((OsSolutions.semClose st.table s).1 u).ref = _
      simp [semClose_ref, hne]
  | @unlinked p sd s t hp hr =>
      refine ⟨rfl, fun u => ⟨?_, fun _ => ?_⟩⟩
      · show (t.modify s _ u).linked = _ ∨ (t.modify s _ u).linked = false
        rw [STable.modify_apply]
        split
        · exact .inr rfl
        · exact .inl (hp.fields u).2.2
      · exact (STable.modify_field Sem.ref t s u rfl).trans (hp.fields u).2.1
  | unlinkSleeps hp hr => exact ⟨rfl, fun u => ⟨.inl (hp.fields u).2.2, fun _ => (hp.fields u).2.1⟩⟩
  | @took p sd next s ht hs hpos =>
      exact ⟨rfl, fun u => ⟨.inl (STable.modify_field Sem.linked st.table s u rfl),
        fun _ => STable.modify_field Sem.ref st.table s u rfl⟩⟩
  | waitSleeps => exact ⟨rfl, fun u => ⟨.inl rfl, fun _ => rfl⟩⟩
  | messaged =>
      unfold State.message
      split <;> exact ⟨rfl, fun u => ⟨.inl rfl, fun _ => rfl⟩⟩
  | @posted p sd next j s ht hs hne =>
      exact ⟨rfl, fun u => ⟨.inl (STable.modify_field Sem.linked st.table s u rfl),
        fun _ => STable.modify_field Sem.ref st.table s u rfl⟩⟩
  | postRefused => exact ⟨rfl, fun u => ⟨.inl rfl, fun _ => rfl⟩⟩
  | childrenLeft => exact ⟨rfl, fun u => ⟨.inl rfl, fun _ => rfl⟩⟩
  | exited => exact ⟨rfl, fun u => ⟨.inl rfl, fun _ => rfl⟩⟩
  | reaped => exact ⟨rfl, fun u => ⟨.inl rfl, fun _ => rfl⟩⟩

/-! ## The slot of an open -/

theorem only_parent_opens (hc : Control st.pc) {sd : Fin NOSEM} (hp : st.pc p = .semOpen sd) :
    p = none := by
  have hat := hc.stands p
  rw [hp] at hat
  cases p with
  | none => rfl
  | some i => exact absurd hat id

/-- The slot of the same number as the descriptor. -/
def slotOf (sd : Fin NOSEM) : Fin NSEM := sd.castLE (by decide)

theorem Tidy.opened_eq (h : Tidy st) {sd : Fin NOSEM} {s : Fin NSEM}
    (hs : st.opened sd = some s) : s = slotOf sd := Fin.ext (h.placed sd s hs)

theorem Tidy.scan (h : Tidy st) (hd : Descr clean st) {sd : Fin NOSEM}
    (hp : st.pc none = .semOpen sd) :
    semOpenScan st.table (semName sd) (List.finRange NSEM) none = .create (some (slotOf sd)) := by
  have hnot : ∀ x, sd ≤ x → st.opened x = none := fun x hx => hd.notYet x sd hp hx
  have hfree : (st.table (slotOf sd)).linked = false := by
    apply (h.spare (slotOf sd) _).1
    intro x hx
    have hval : sd = x := Fin.ext (h.placed x _ hx)
    rw [hnot x hval.le] at hx
    cases hx
  have hbelow : ∀ u, u < slotOf sd → (st.table u).linked = true := by
    intro u hu
    have hlt : u.val < sd.val := hu
    obtain ⟨s, hs⟩ := hd.isOpen ⟨u.val, hlt.trans sd.isLt⟩ (by
      intro ds hds
      rw [hp] at hds
      cases hds
      exact hlt)
    obtain rfl : s = u := Fin.ext (h.placed _ s hs)
    exact hd.linked _ s sd hp hs
  have hno : ∀ u, ¬ (0 < (st.table u).ref ∧ (st.table u).matches (semName sd)) := by
    rintro u ⟨hpos, hmatch⟩
    by_cases hu : ∃ x, st.opened x = some u
    · obtain ⟨x, hx⟩ := hu
      obtain rfl := (hd.matches_iff hx).mp hmatch
      rw [hnot x le_rfl] at hx
      cases hx
    · rw [(h.spare u fun x hx => hu ⟨x, hx⟩).2] at hpos
      exact absurd hpos (lt_irrefl 0)
  rcases semOpenScan_cases st.table (semName sd) with
    ⟨u, _, hpos, hmatch, _⟩ | ⟨u, hscan, hl, hlow, _⟩ | ⟨_, hall, _⟩
  · exact absurd ⟨hpos, hmatch⟩ (hno u)
  · rw [hscan]
    rcases lt_trichotomy u (slotOf sd) with hlt | rfl | hgt
    · rw [hbelow u hlt] at hl
      cases hl
    · rfl
    · rw [hlow _ hgt] at hfree
      cases hfree
  · rw [hall] at hfree
    cases hfree

theorem Tidy.creates (h : Tidy st) (hd : Descr clean st) (hc : Control st.pc) (a : Act main) :
    Creates st a := by
  intro p sd _ hp
  obtain rfl := only_parent_opens hc hp
  exact ⟨slotOf sd, h.scan hd hp⟩

theorem step_tidy (h : Tidy st) (hd : Descr clean st) (hc : Control st.pc) (hs : Step st a st') :
    Tidy st' := by
  rcases opening_or_later hc hs with ⟨sd, rfl, hp, rfl⟩ | hn
  · have ho := hd.opening hp (h.scan hd hp)
    refine ⟨?_, ?_⟩
    · intro x u hx
      rcases ho.cases hx with ⟨rfl, rfl⟩ | ⟨_, hxo, _⟩
      · rfl
      · exact h.placed x u hxo
    · intro u hu
      have hne : u ≠ slotOf sd := by
        intro heq
        apply hu sd
        rw [ho.opened, Function.update_self, heq]
      rw [ho.table_of_ne hne]
      apply h.spare
      intro x hx
      apply hu x
      rw [ho.opened, Function.update_of_ne]
      · exact hx
      · intro hxs
        subst hxs
        exact hne (h.opened_eq hx)
  · obtain ⟨hopened, hslots⟩ := step_keeps_slot hs hn fun p sd => only_parent_opens hc
    refine ⟨?_, ?_⟩
    · rw [hopened]
      exact h.placed
    · intro u hu
      rw [hopened] at hu
      obtain ⟨hl, hr⟩ := h.spare u hu
      obtain ⟨hlink, href⟩ := hslots u
      refine ⟨hlink.elim (fun heq => heq.trans hl) id, (href ?_).trans hr⟩
      exact fun p sd hosem => hu sd (hd.opened_of_osem hosem).1

/-- On a free table every open creates, in every run. -/
theorem tidy_of_reachable {table : STable} (hfree : AllFree table)
    (h : Reachable step Free (start main table) st) :
    Reachable step Creates (start main table) st ∧ Control st.pc ∧ Descr True st ∧ Tidy st := by
  induction h with
  | refl =>
      refine ⟨.refl, control_start main table, descr_start main fun _ s => ?_, ?_,
        fun u _ => hfree u⟩
      · rw [(hfree s).2]
      · intro sd s hs
        cases hs
  | @tail t t' a _ _ hs ih =>
      obtain ⟨hreach, hc, hd, ht⟩ := ih
      have hok := ht.creates hd hc a
      have hstep := step_cases hs
      exact ⟨hreach.tail hok hs, step_control hc hstep, step_descr hd hc hok hstep,
        step_tidy ht hd hc hstep⟩

end OsSolutions.ProdCons
