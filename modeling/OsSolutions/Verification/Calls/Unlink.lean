import OsSolutions.Verification.Calls.Linked

/-! # What `sem_unlink` removes

The lookup compares the names of all slots, freed and never used ones included, and stops
at the first that reads as the name. -/

namespace OsSolutions.Calls

open Transition

variable {P : Type*} [DecidableEq P] {st st' : State P} {a : Act P}

def NoneLinked (t : STable) (name : Name) : Prop := ∀ s, ¬ LinkedAs t name s

instance (t : STable) (name : Name) : Decidable (NoneLinked t name) :=
  inferInstanceAs (Decidable (∀ s, ¬ LinkedAs t name s))

/-- The slot that the lookup of `sem_unlink` ends on. -/
structure FirstNamed (t : STable) (name : Name) (s : Fin NSEM) : Prop where
  carries : (t s).Carries name
  first : ∀ u < s, ¬ (t u).Carries name

/-- A `sem_unlink` by a process that is not killed returns -1 exactly when no slot is linked
under the name, and none is when it returns 0, at once or after a wait. -/
def UnlinkRight (st : State P) : Act P → Prop
  | .unlink _ name false =>
      ((semUnlink false st.table name).2 = .ret (-1) ↔ NoneLinked st.table name) ∧
        ((semUnlink false st.table name).2 = .ret 0 →
          NoneLinked (semUnlink false st.table name).1 name)
  | .recheck p false => ∀ found name, st.blocked p = some (found, name) →
      (semUnlinkPass false st.table found).2 = some 0 →
        NoneLinked (semUnlinkPass false st.table found).1 name
  | _ => True

/-- If slots read as the name, the first of them is the one slot linked under it, or it has
references and some slot is linked. After a wait, no slot but the one waited for is. -/
def UnlinkFits (st : State P) : Act P → Prop
  | .unlink _ name false => ∀ s, FirstNamed st.table name s →
      if (st.table s).ref = 0 then
        LinkedAs st.table name s ∧ ∀ u, u ≠ s → ¬ LinkedAs st.table name u
      else ∃ u, LinkedAs st.table name u
  | .recheck p false => ∀ found name, st.blocked p = some (found, name) →
      (st.table found).ref = 0 → ∀ u, u ≠ found → ¬ LinkedAs st.table name u
  | _ => True

/-! ## The lookup and the loop -/

theorem semUnlinkScan_cases (t : STable) (name : Name) :
    (∃ s, semUnlinkScan t name (List.finRange NSEM) none = some s ∧ FirstNamed t name s) ∨
    (semUnlinkScan t name (List.finRange NSEM) none = none ∧ ∀ s, ¬ (t s).Carries name) := by
  rw [semUnlinkScan_eq]
  cases hfind : (List.finRange NSEM).find? fun s => (t s).matches name with
  | some s =>
      obtain ⟨hs, hbelow⟩ := (find?_finRange_eq_some _ s).mp hfind
      refine .inl ⟨s, rfl, (matches_name _ _).mp hs, ?_⟩
      intro u hu hcarries
      have hm := (matches_name _ _).mpr hcarries
      rw [hbelow u hu] at hm
      cases hm
  | none =>
      refine .inr ⟨rfl, ?_⟩
      intro s hcarries
      have hno := List.find?_eq_none.mp hfind s (List.mem_finRange s)
      exact hno ((matches_name _ _).mpr hcarries)

theorem FirstNamed.unique {t : STable} {name : Name} {s u : Fin NSEM}
    (hs : FirstNamed t name s) (hu : FirstNamed t name u) : s = u := by
  rcases lt_trichotomy s u with hlt | heq | hlt
  · exact absurd hs.carries (hu.first s hlt)
  · exact heq
  · exact absurd hu.carries (hs.first u hlt)

theorem linkedAs_mark (t : STable) (found s : Fin NSEM) (name : Name) :
    LinkedAs (semUnlinkMark t found) name s ↔ LinkedAs t name s := by
  have hbytes : (semUnlinkMark t found s).bytes = (t s).bytes :=
    STable.modify_field Sem.bytes t found s rfl
  have hlinked : (semUnlinkMark t found s).linked = (t s).linked :=
    STable.modify_field Sem.linked t found s rfl
  simp only [LinkedAs, Sem.Carries, hbytes, hlinked]

/-- Freeing a slot leaves nothing linked exactly when nothing else was. -/
theorem noneLinked_free_iff (t : STable) (found : Fin NSEM) (name : Name) :
    NoneLinked (t.modify found fun x => { x with linked := false }) name ↔
      ∀ u, u ≠ found → ¬ LinkedAs t name u := by
  constructor
  · intro h u hu hlinked
    apply h u
    rwa [LinkedAs, STable.modify_of_ne _ _ hu]
  · intro h u hlinked
    by_cases hu : u = found
    · subst hu
      simp [LinkedAs] at hlinked
    · rw [LinkedAs, STable.modify_of_ne _ _ hu] at hlinked
      exact h u hu hlinked

theorem semUnlinkPass_noneLinked_iff (t : STable) (found : Fin NSEM) (name : Name) :
    ((semUnlinkPass false t found).2 = some 0 →
        NoneLinked (semUnlinkPass false t found).1 name) ↔
      ((t found).ref = 0 → ∀ u, u ≠ found → ¬ LinkedAs t name u) := by
  by_cases hr : (t found).ref = 0
  · simp [semUnlinkPass, hr, noneLinked_free_iff]
  · simp [semUnlinkPass, hr]

theorem semUnlink_found {t : STable} {name : Name} {found : Fin NSEM}
    (hfound : semUnlinkScan t name (List.finRange NSEM) none = some found) :
    ((t found).ref = 0 → semUnlink false t name =
      ((semUnlinkMark t found).modify found fun x => { x with linked := false }, .ret 0)) ∧
    ((t found).ref ≠ 0 → semUnlink false t name = (semUnlinkMark t found, .sleep found)) := by
  have href : (semUnlinkMark t found found).ref = (t found).ref :=
    STable.modify_field Sem.ref t found found rfl
  constructor
  · intro hr
    simp [semUnlink, hfound, semUnlinkPass, href, hr]
  · intro hr
    simp [semUnlink, hfound, semUnlinkPass, href, hr]

omit [DecidableEq P] in
theorem unlink_right_iff (p : P) (name : Name) :
    UnlinkRight st (.unlink p name false) ↔ UnlinkFits st (.unlink p name false) := by
  rcases semUnlinkScan_cases st.table name with ⟨s, hscan, hfirst⟩ | ⟨hscan, hno⟩
  · have hfits : UnlinkFits st (.unlink p name false) ↔
        if (st.table s).ref = 0 then
          LinkedAs st.table name s ∧ ∀ u, u ≠ s → ¬ LinkedAs st.table name u
        else ∃ u, LinkedAs st.table name u := by
      constructor
      · exact fun h => h s hfirst
      · intro h u hu
        rwa [hu.unique hfirst]
    rw [hfits]
    by_cases hr : (st.table s).ref = 0
    · simp only [UnlinkRight, (semUnlink_found hscan).1 hr, if_pos hr, noneLinked_free_iff,
        linkedAs_mark, Unlink.ret.injEq, forall_const]
      constructor
      · intro ⟨hret, hothers⟩
        refine ⟨?_, hothers⟩
        by_contra hs
        have hnone : NoneLinked st.table name := by
          intro u hu
          by_cases hus : u = s
          · exact hs (hus ▸ hu)
          · exact hothers u hus hu
        exact absurd (hret.mpr hnone) (by decide)
      · intro ⟨hs, hothers⟩
        exact ⟨iff_of_false (by decide) fun hnone => hnone s hs, hothers⟩
    · simp only [UnlinkRight, (semUnlink_found hscan).2 hr, if_neg hr, NoneLinked]
      simp
  · have hret : semUnlink false st.table name = (st.table, .ret (-1)) := by
      simp [semUnlink, hscan]
    have hnone : NoneLinked st.table name := fun s hs => hno s hs.2
    refine iff_of_true ?_ fun s hs => absurd hs.carries (hno s)
    simp [UnlinkRight, hret, hnone]

omit [DecidableEq P] in
theorem unlinkRight_iff (st : State P) (a : Act P) : UnlinkRight st a ↔ UnlinkFits st a := by
  cases a with
  | unlink p name killed =>
      cases killed with
      | true => exact Iff.rfl
      | false => exact unlink_right_iff p name
  | recheck p killed =>
      cases killed with
      | true => exact Iff.rfl
      | false =>
          refine forall_congr' fun found => forall_congr' fun name => imp_congr_right fun _ => ?_
          exact semUnlinkPass_noneLinked_iff st.table found name
  | _ => exact Iff.rfl

/-! ## Every run -/

/-- Along a run of calls, every `sem_unlink` is right exactly when it fits the table it
meets. -/
theorem meets_unlinkRight_iff (acts : List (Act P)) :
    Meets step UnlinkRight start acts ↔ Meets step UnlinkFits start acts :=
  meets_congr unlinkRight_iff start acts

/-- Where linked slots are only looked up while open, `sem_unlink` of a linked name is
right: the first slot that reads as the name is the linked one. -/
theorem unlink_right_of_linked (h : Reachable step StillOpen start st) {name : Name}
    {s : Fin NSEM} (hs : LinkedAs st.table name s) (p : P) :
    UnlinkRight st (.unlink p name false) := by
  have hforemost : Foremost st.table := by
    apply h.invariant (P := fun st => Foremost st.table) foremost_start
    exact fun _ _ _ hf hok hstep => step_foremost hf hok hstep
  rw [unlinkRight_iff]
  intro u hu
  have hus : u = s := by
    rcases lt_trichotomy u s with hlt | heq | hlt
    · exact absurd hu.carries (hforemost name s hs u hlt)
    · exact heq
    · exact absurd hs.2 (hu.first s hlt)
  subst hus
  split
  · exact ⟨hs, fun v hv hlinked => hv (hforemost.unique hlinked hs)⟩
  · exact ⟨u, hs⟩

/-- Unlinked and free, slot 0 still reads as the name: a second `sem_unlink` reports
success. -/
theorem semUnlink_freed_again :
    let a : Name := ⟨⟨[97], by decide⟩, by decide⟩
    ∃ st : State (Fin 1), run step start [.open a 1 1 1, .close 0, .unlink 0 a false] = some st ∧
      NoneLinked st.table a ∧ (semUnlink false st.table a).2 = .ret 0 ∧
      ¬ UnlinkRight st (.unlink 0 a false) :=
  ⟨_, rfl, by decide, by decide, fun h => absurd (h.1.mpr (by decide)) (by decide)⟩

end OsSolutions.Calls
