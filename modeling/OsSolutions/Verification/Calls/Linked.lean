import OsSolutions.Model.TableCalls
import OsSolutions.Transition.Run
import OsSolutions.Verification.Sem.Naming

/-! # One linked slot for each name

`sem_open` looks a name up among the slots with references and takes a new slot from those
that are not linked. As long as a linked slot is only looked up while it has references, the
lookup finds it: no slot before it carries its name. -/

namespace OsSolutions.Calls

open Transition

variable {P : Type*} [DecidableEq P] {st st' : State P} {a : Act P}

/-- The slot is linked under the name. -/
def LinkedAs (t : STable) (name : Name) (s : Fin NSEM) : Prop :=
  (t s).linked = true ∧ (t s).Carries name

instance (t : STable) (name : Name) (s : Fin NSEM) : Decidable (LinkedAs t name s) :=
  inferInstanceAs (Decidable (_ ∧ _))

def OneLinked (st : State P) : Prop :=
  ∀ name s u, LinkedAs st.table name s → LinkedAs st.table name u → s = u

/-- A `sem_open` of a name that a slot is linked under returns that slot. -/
def ReturnsLinked (st : State P) : Act P → Prop
  | .open name init maxVal pid => ∀ s, LinkedAs st.table name s →
      (semOpen st.table name init maxVal pid).2 = some s
  | _ => True

/-- A slot linked under the name of a `sem_open` has a reference at that time. -/
def StillOpen (st : State P) : Act P → Prop
  | .open name _ _ _ => ∀ s, LinkedAs st.table name s → 0 < (st.table s).ref
  | _ => True

/-- No slot before a linked one carries its name, linked or not. -/
def Foremost (t : STable) : Prop :=
  ∀ name s, LinkedAs t name s → ∀ u < s, ¬ (t u).Carries name

theorem matches_name (x : Sem) (name : Name) : x.matches name ↔ x.Carries name :=
  Sem.matches_iff_carries (Nat.lt_of_le_of_lt name.property (by decide))

theorem opened_carries_iff (x : Sem) (name n : Name) (init maxVal pid : Int32) :
    (x.opened name init maxVal pid).Carries n ↔ n = name := by
  have hcarries : (x.opened name init maxVal pid).Carries name :=
    Sem.opened_carries x init maxVal pid (Nat.lt_succ_of_le name.property)
  constructor
  · exact fun h => Subtype.ext (h.unique hcarries)
  · intro heq
    subst heq
    exact hcarries

/-! ## The invariant -/

theorem Foremost.unique {t : STable} (h : Foremost t) {name : Name} {s u : Fin NSEM}
    (hs : LinkedAs t name s) (hu : LinkedAs t name u) : s = u := by
  rcases lt_trichotomy s u with hlt | heq | hlt
  · exact absurd hs.2 (h name u hu s hlt)
  · exact heq
  · exact absurd hu.2 (h name s hs u hlt)

/-- Names stay, and slots are only unlinked. -/
theorem Foremost.congr {t t' : STable} (h : Foremost t)
    (hbytes : ∀ s, (t' s).bytes = (t s).bytes)
    (hlinked : ∀ s, (t' s).linked = true → (t s).linked = true) : Foremost t' := by
  have hcarries : ∀ s (n : Name), (t' s).Carries n ↔ (t s).Carries n := by
    intro s n
    simp only [Sem.Carries, hbytes]
  intro name s hs u hu
  rw [hcarries]
  exact h name s ⟨hlinked s hs.1, (hcarries s name).mp hs.2⟩ u hu

/-- A write that keeps the name of the slot and whether it is linked. -/
theorem Foremost.modify {t : STable} (h : Foremost t) (s : Fin NSEM) {f : Sem → Sem}
    (hbytes : (f (t s)).bytes = (t s).bytes) (hlinked : (f (t s)).linked = (t s).linked) :
    Foremost (t.modify s f) := by
  apply h.congr
  · exact fun u => STable.modify_field Sem.bytes t s u hbytes
  · exact fun u hu => (STable.modify_field Sem.linked t s u hlinked).symm.trans hu

/-- A new semaphore goes to the first free slot, and no linked slot carries its name. -/
theorem Foremost.create {t : STable} (h : Foremost t) {name : Name} {spot : Fin NSEM}
    (hbelow : ∀ u < spot, (t u).linked = true) (hno : ∀ u, ¬ LinkedAs t name u)
    (init maxVal pid : Int32) : Foremost (semOpenInit t spot name init maxVal pid) := by
  have hself : semOpenInit t spot name init maxVal pid spot =
      (t spot).opened name init maxVal pid := STable.modify_self _ _ _
  have hother : ∀ {u}, u ≠ spot → semOpenInit t spot name init maxVal pid u = t u :=
    fun hu => STable.modify_of_ne _ _ hu
  intro n s hs u hus hcarries
  by_cases hsp : s = spot
  · -- the new slot: everything before it is linked, so not under this name
    subst hsp
    rw [LinkedAs, hself] at hs
    rw [(opened_carries_iff (t s) name n init maxVal pid).mp hs.2,
      hother (ne_of_lt hus)] at hcarries
    exact hno u ⟨hbelow u hus, hcarries⟩
  · rw [LinkedAs, hother hsp] at hs
    by_cases hup : u = spot
    · subst hup
      rw [hself] at hcarries
      rw [(opened_carries_iff (t u) name n init maxVal pid).mp hcarries] at hs
      exact hno s hs
    · rw [hother hup] at hcarries
      exact h n s hs u hus hcarries

/-- A lookup that finds no open slot of the name leaves no slot linked under it. -/
theorem not_linkedAs_of_none {t : STable} {name : Name}
    (hopen : ∀ s, LinkedAs t name s → 0 < (t s).ref)
    (hno : ∀ u, ¬ (0 < (t u).ref ∧ (t u).matches name)) (s : Fin NSEM) :
    ¬ LinkedAs t name s :=
  fun hs => hno s ⟨hopen s hs, (matches_name _ _).mpr hs.2⟩

theorem Foremost.semOpen {t : STable} (h : Foremost t) {name : Name}
    (hopen : ∀ s, LinkedAs t name s → 0 < (t s).ref) (init maxVal pid : Int32) :
    Foremost (semOpen t name init maxVal pid).1 := by
  rcases semOpenScan_cases t name with
    ⟨s, hscan, _⟩ | ⟨s, hscan, _, hbelow, hno⟩ | ⟨hscan, _, _⟩
  · simp only [OsSolutions.semOpen, hscan]
    exact h.modify s rfl rfl
  · simp only [OsSolutions.semOpen, hscan]
    exact h.create hbelow (not_linkedAs_of_none hopen hno) init maxVal pid
  · simp only [OsSolutions.semOpen, hscan]
    exact h

theorem Foremost.semUnlinkPass {t : STable} (h : Foremost t) (killed : Bool)
    (found : Fin NSEM) : Foremost (semUnlinkPass killed t found).1 := by
  unfold OsSolutions.semUnlinkPass
  split
  · apply h.congr
    · exact fun u => STable.modify_field Sem.bytes t found u rfl
    · intro u hu
      by_cases hus : u = found
      · subst hus
        simp at hu
      · simpa only [STable.modify_of_ne _ _ hus] using hu
  · split <;> exact h

theorem Foremost.semUnlinkMark {t : STable} (h : Foremost t) (found : Fin NSEM) :
    Foremost (semUnlinkMark t found) :=
  h.modify found rfl rfl

theorem Foremost.semUnlink {t : STable} (h : Foremost t) (killed : Bool) (name : Name) :
    Foremost (semUnlink killed t name).1 :=
  semUnlink_keeps h killed name fun found => (h.semUnlinkMark found).semUnlinkPass killed found

theorem step_foremost (h : Foremost st.table) (hok : StillOpen st a)
    (hs : step st a = some st') : Foremost st'.table := by
  cases a with
  | «open» name init maxVal pid =>
      cases hs
      exact h.semOpen hok init maxVal pid
  | dup s =>
      cases hs
      exact h.modify s rfl rfl
  | close s =>
      cases hs
      exact h.modify (f := fun x => { x with ref := x.ref - 1 }) s rfl rfl
  | unlink p name killed =>
      have hunlink := h.semUnlink killed name
      simp only [step] at hs
      split at hs
      · split at hs <;> rename_i heq <;> cases hs <;> rwa [heq] at hunlink
      · cases hs
  | recheck p killed =>
      simp only [step] at hs
      split at hs
      · rename_i found name _
        have hpass := h.semUnlinkPass killed found
        split at hs <;> rename_i heq <;> cases hs <;> rwa [heq] at hpass
      · cases hs

/-! ## Every run -/

omit [DecidableEq P] in
/-- The lookup ends on the linked slot, since no slot before it carries the name. -/
theorem returnsLinked_of_stillOpen (h : Foremost st.table) (hok : StillOpen st a) :
    ReturnsLinked st a := by
  cases a with
  | «open» name init maxVal pid =>
      intro s hs
      have hmatch := (matches_name _ _).mpr hs.2
      rcases semOpenScan_cases st.table name with
        ⟨u, hscan, hu, hum, hfirst⟩ | ⟨u, _, _, _, hno⟩ | ⟨_, _, hno⟩
      · have hus : u = s := by
          rcases lt_trichotomy u s with hlt | heq | hlt
          · exact absurd ((matches_name _ _).mp hum) (h name s hs u hlt)
          · exact heq
          · exact absurd ⟨hok s hs, hmatch⟩ (hfirst s hlt)
        simp [semOpen, hscan, hus]
      · exact absurd ⟨hok s hs, hmatch⟩ (hno s)
      · exact absurd ⟨hok s hs, hmatch⟩ (hno s)
  | _ => trivial

omit [DecidableEq P] in
/-- What is returned was found by its references: a free slot is not linked. -/
theorem stillOpen_of_returnsLinked (h : ReturnsLinked st a) : StillOpen st a := by
  cases a with
  | «open» name init maxVal pid =>
      intro s hs
      have hret := h s hs
      rcases semOpenScan_cases st.table name with
        ⟨u, hscan, hu, _⟩ | ⟨u, hscan, hu, _⟩ | ⟨hscan, _⟩
      · obtain rfl : u = s := by simpa [semOpen, hscan] using hret
        exact hu
      · obtain rfl : u = s := by simpa [semOpen, hscan] using hret
        rw [hs.1] at hu
        cases hu
      · simp [semOpen, hscan] at hret
  | _ => trivial

omit [DecidableEq P] in
theorem foremost_start : Foremost (start : State P).table :=
  fun _ _ hs => absurd hs.1 (by simp [start, STable.zero, Sem.zero])

/-- Along a run of calls, at most one slot is linked under each name and every `sem_open`
of a linked name returns its slot, exactly when no linked slot is looked up while it has no
references. -/
theorem always_oneLinked_iff (acts : List (Act P)) :
    (Always step OneLinked start acts ∧ Meets step ReturnsLinked start acts) ↔
      Meets step StillOpen start acts := by
  constructor
  · intro h
    exact h.2.imp (I := fun _ => True) trivial (fun _ _ _ _ _ _ => trivial)
      fun _ _ _ => stillOpen_of_returnsLinked
  · intro h
    constructor
    · have hforemost : Always step (fun st : State P => Foremost st.table) start acts :=
        h.always foremost_start fun _ _ _ hf hok hs => step_foremost hf hok hs
      exact hforemost.imp fun _ hf _ _ _ hs hu => hf.unique hs hu
    · exact h.imp (I := fun st : State P => Foremost st.table) foremost_start
        (fun _ _ _ hf hok hs => step_foremost hf hok hs)
        fun _ _ hf hok => returnsLinked_of_stillOpen hf hok

/-- A semaphore is created, closed by its only user, and opened again: slot 0 stays linked
and a second semaphore of that name is created in slot 1. -/
theorem semOpen_twice_linked :
    let a : Name := ⟨⟨[97], by decide⟩, by decide⟩
    ∃ st : State (Fin 1), run step start [.open a 1 1 1, .close 0, .open a 1 1 1] = some st ∧
      LinkedAs st.table a 0 ∧ LinkedAs st.table a 1 ∧ ¬ OneLinked st :=
  ⟨_, rfl, by decide, by decide, fun h => absurd (h ⟨⟨[97], by decide⟩, by decide⟩ 0 1
    (by decide) (by decide)) (by decide)⟩

end OsSolutions.Calls
