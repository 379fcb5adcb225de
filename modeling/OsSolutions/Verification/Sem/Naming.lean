import OsSolutions.Verification.Sem.Sections

/-! # Which name a slot answers to

The copy keeps nine characters, the comparison reads ten bytes, and the two bytes they
share with `owner_pid` are overwritten after the copy. Names of at most seven characters
never reach those bytes. -/

namespace OsSolutions

namespace Sem

/-- The C string at the start of the slot's storage. -/
def Carries (x : Sem) (n : CString) : Prop := ∀ i ≤ n.length, x.bytes i = n.ptr i

instance (x : Sem) (n : CString) : Decidable (x.Carries n) :=
  inferInstanceAs (Decidable (∀ i, i ≤ n.length → x.bytes i = n.ptr i))

theorem matches_iff (x : Sem) (n : CString) :
    x.matches n ↔ ∀ i < SEMNAME, (∀ j < i, x.bytes j ≠ 0) → x.bytes i = n.ptr i := by
  rw [Sem.matches, decide_eq_true_eq, strncmp_eq_zero_iff]

theorem Carries.ne_zero {x : Sem} {n : CString} (h : x.Carries n) {i : ℕ}
    (hi : i < n.length) : x.bytes i ≠ 0 := by
  rw [h i (Nat.le_of_lt hi)]
  exact CString.ptr_ne_zero hi

theorem Carries.matches {x : Sem} {n : CString} (h : x.Carries n) : x.matches n := by
  rw [matches_iff]
  intro i _ hne
  by_cases hi : i ≤ n.length
  · exact h i hi
  · exact absurd (by rw [h _ le_rfl, CString.ptr_length]) (hne n.length (by omega))

/-- A slot that carries a name within the compared bytes answers to that name only. -/
theorem Carries.matches_iff {x : Sem} {m n : CString} (h : x.Carries m)
    (hm : m.length < SEMNAME) : x.matches n ↔ m = n := by
  constructor
  · intro hx
    rw [Sem.matches_iff] at hx
    refine CString.eq_of_ptr ?_
    intro i hi
    rw [← h i hi]
    exact hx i (by omega) fun j hj => h.ne_zero (by omega)
  · intro heq
    subst heq
    exact h.matches

theorem matches_iff_carries {x : Sem} {n : CString} (hn : n.length < SEMNAME) :
    x.matches n ↔ x.Carries n := by
  refine ⟨?_, Carries.matches⟩
  intro hx i
  rw [matches_iff] at hx
  induction i using Nat.strong_induction_on with
  | _ i ih =>
      intro hi
      refine hx i (by omega) ?_
      intro j hj
      rw [ih j hj (by omega)]
      exact CString.ptr_ne_zero (by omega)

theorem Carries.unique {x : Sem} {m n : CString} (h : x.Carries m) (k : x.Carries n) :
    m = n := by
  refine CString.eq_of_ptr ?_
  intro i hi
  by_cases hn : i ≤ n.length
  · rw [← h i hi, k i hn]
  · have hz : x.bytes n.length = 0 := by rw [k _ le_rfl, CString.ptr_length]
    exact absurd hz (h.ne_zero (by omega))

variable (x : Sem) (init maxVal pid : Int32)

theorem opened_carries {n : CString} (hn : n.length < 8) :
    (x.opened n init maxVal pid).Carries n :=
  fun i hi => opened_bytes_low x n init maxVal pid (by omega) hi

/-- From the ninth character on the name reads like the low bytes of the pid. -/
def TailIsPid (n : CString) (pid : Int32) : Prop :=
  n.ptr 8 = pidByte pid 0 ∧ (pidByte pid 0 ≠ 0 → n.ptr 9 = pidByte pid 1)

instance (n : CString) (pid : Int32) : Decidable (TailIsPid n pid) :=
  inferInstanceAs (Decidable (_ ∧ (_ → _)))

/-- The names that a slot created as `m` by process `pid` answers to. -/
def AnswersTo (m : CString) (pid : Int32) (n : CString) : Prop :=
  if m.length < 8 then m = n else (∀ i < 8, m.ptr i = n.ptr i) ∧ TailIsPid n pid

instance (m : CString) (pid : Int32) (n : CString) : Decidable (AnswersTo m pid n) :=
  inferInstanceAs (Decidable (if m.length < 8 then _ else _))

theorem opened_matches_iff (m n : CString) :
    (x.opened m init maxVal pid).matches n ↔ AnswersTo m pid n := by
  unfold AnswersTo
  split
  · rename_i hm
    exact (opened_carries x init maxVal pid hm).matches_iff (hm.trans (by decide))
  · rename_i hm
    have hlow : ∀ i < 8, (x.opened m init maxVal pid).bytes i = m.ptr i :=
      fun i hi => opened_bytes_low x m init maxVal pid hi (by omega)
    have hne : ∀ i < 8, (x.opened m init maxVal pid).bytes i ≠ 0 := by
      intro i hi
      rw [hlow i hi]
      exact CString.ptr_ne_zero (by omega)
    have h8 : (x.opened m init maxVal pid).bytes 8 = pidByte pid 0 :=
      opened_bytes_pid x m init maxVal pid (k := 0) (by omega)
    have h9 : (x.opened m init maxVal pid).bytes 9 = pidByte pid 1 :=
      opened_bytes_pid x m init maxVal pid (k := 1) (by omega)
    rw [matches_iff]
    constructor
    · intro h
      refine ⟨?_, ?_, ?_⟩
      · intro i hi
        rw [← hlow i hi]
        exact h i (by simp only [SEMNAME]; omega) fun j hj => hne j (by omega)
      · rw [← h8]
        exact (h 8 (by decide) fun j hj => hne j hj).symm
      · intro hp
        rw [← h9]
        refine (h 9 (by decide) fun j hj => ?_).symm
        rcases Nat.lt_succ_iff_lt_or_eq.mp hj with hj | rfl
        · exact hne j hj
        · rwa [h8]
    · rintro ⟨hs, hp, hq⟩ i hi hz
      have hi' : i < 8 ∨ i = 8 ∨ i = 9 := by simp only [SEMNAME] at hi; omega
      rcases hi' with hi' | rfl | rfl
      · rw [hlow i hi', hs i hi']
      · rw [h8, hp]
      · rw [h9, hq (h8 ▸ hz 8 (by omega))]

end Sem

/-! ## Opening a second time -/

/-- A name is kept apart from the others when it ends before the bytes of `owner_pid`, or
the second name differs within the first eight characters. Longer names are told apart by
the bytes of the creator's pid: an equal name has to continue with them, another must not. -/
def NameKept (n₁ n₂ : CString) (pid : Int32) : Prop :=
  n₁.length < 8 ∨ (∃ i < 8, n₁.ptr i ≠ n₂.ptr i) ∨
    (n₁ = n₂ ∧ Sem.TailIsPid n₁ pid) ∨ (n₁ ≠ n₂ ∧ ¬ Sem.TailIsPid n₂ pid)

theorem nameKept_iff (n₁ n₂ : CString) (pid : Int32) :
    NameKept n₁ n₂ pid ↔ (Sem.AnswersTo n₁ pid n₂ ↔ n₁ = n₂) := by
  unfold NameKept Sem.AnswersTo
  by_cases hlen : n₁.length < 8
  · simp [hlen]
  · rw [if_neg hlen]
    by_cases hpre : ∀ i < 8, n₁.ptr i = n₂.ptr i
    · have hno : ¬ ∃ i < 8, n₁.ptr i ≠ n₂.ptr i := by simpa using hpre
      by_cases heq : n₁ = n₂
      · subst heq
        simp [hlen]
      · tauto
    · have hsome : ∃ i < 8, n₁.ptr i ≠ n₂.ptr i := by simpa using hpre
      have hne : n₁ ≠ n₂ := by
        intro heq
        subst heq
        exact hpre fun _ _ => rfl
      exact iff_of_true (.inr (.inl hsome)) (iff_of_false (fun h => hpre h.1) hne)

/-- The semaphore created in slot `s` is still held in `t`, whatever its holders did with
it meanwhile, and nothing else is open. -/
structure HeldAlone (created t : STable) (s : Fin NSEM) : Prop where
  bytes_eq : (t s).bytes = (created s).bytes
  linked : (t s).linked = true
  held : 0 < (t s).ref
  others : ∀ u, u ≠ s → (t u).ref = 0

/-- What a later open finds is decided by the bytes of the held slot alone. -/
theorem HeldAlone.semOpen_iff {created t : STable} {s : Fin NSEM} (h : HeldAlone created t s)
    (n : CString) (init maxVal pid : Int32) :
    (semOpen t n init maxVal pid).2 = some s ↔ (created s).matches n := by
  have hm : (t s).matches n = (created s).matches n := by simp only [Sem.matches, h.bytes_eq]
  rw [← hm]
  rcases semOpenScan_cases t n with
    ⟨u, hscan, hu, hmatch, _⟩ | ⟨u, hscan, hu, _, hno⟩ | ⟨hscan, _, hno⟩
  · have hus : u = s := by
      by_contra hne
      rw [h.others u hne] at hu
      exact absurd hu (lt_irrefl 0)
    subst hus
    simp [semOpen, hscan, hmatch]
  · have hus : u ≠ s := by
      intro heq
      subst heq
      simp [h.linked] at hu
    have hns : ¬ (t s).matches n := fun hc => hno s ⟨h.held, hc⟩
    simp [semOpen, hscan, hus, hns]
  · have hns : ¬ (t s).matches n := fun hc => hno s ⟨h.held, hc⟩
    simp [semOpen, hscan, hns]

/-- In an otherwise empty table, a later `sem_open` returns the slot of the first for the
same name and for no other, exactly when the name is kept. -/
theorem semOpen_sameSlot_iff (t : STable)
    (hempty : ∀ s, (t s).linked = false ∧ (t s).ref = 0) (n₁ n₂ : CString)
    (init₁ maxVal₁ pid₁ init₂ maxVal₂ pid₂ : Int32) :
    ∃ s, (semOpen t n₁ init₁ maxVal₁ pid₁).2 = some s ∧
      ∀ t', HeldAlone (semOpen t n₁ init₁ maxVal₁ pid₁).1 t' s →
        (((semOpen t' n₂ init₂ maxVal₂ pid₂).2 = some s ↔ n₁ = n₂) ↔ NameKept n₁ n₂ pid₁) := by
  rcases semOpenScan_cases t n₁ with ⟨s, _, hs, _⟩ | ⟨s, hscan, _⟩ | ⟨_, hall, _⟩
  · have := (hempty s).2
    omega
  · have hfirst : semOpen t n₁ init₁ maxVal₁ pid₁ =
        (semOpenInit t s n₁ init₁ maxVal₁ pid₁, some s) := by simp only [semOpen, hscan]
    have hslot : semOpenInit t s n₁ init₁ maxVal₁ pid₁ s = (t s).opened n₁ init₁ maxVal₁ pid₁ :=
      STable.modify_self _ _ _
    rw [hfirst]
    refine ⟨s, rfl, ?_⟩
    intro t' ht'
    rw [nameKept_iff, ht'.semOpen_iff]
    dsimp only
    rw [hslot, Sem.opened_matches_iff]
  · have := (hempty 0).1
    simp [hall] at this

theorem semOpen_sameSlot_iff_boot :
    let sem : CString := ⟨[115, 101, 109], by decide⟩
    let dad : CString := ⟨[100, 97, 100], by decide⟩
    let first := semOpen .zero sem 1 4 1
    ((semOpen first.1 dad 2 2 1).2 = some 0 ↔ sem = dad) ↔ NameKept sem dad 1 := by
  obtain ⟨s, hs, h⟩ := semOpen_sameSlot_iff .zero (fun _ => ⟨rfl, rfl⟩)
    ⟨[115, 101, 109], by decide⟩ ⟨[100, 97, 100], by decide⟩ 1 4 1 2 2 1
  obtain rfl : 0 = s := Option.some.inj hs
  refine h _ ⟨rfl, rfl, by decide, ?_⟩
  decide

/-- Created by process 65, `abcdefgh` is not found again under that name, while
`abcdefghA` attaches to it. -/
theorem semOpen_longName_splits :
    let abcdefgh : CString := ⟨[97, 98, 99, 100, 101, 102, 103, 104], by decide⟩
    let abcdefghA : CString := ⟨[97, 98, 99, 100, 101, 102, 103, 104, 65], by decide⟩
    let first := semOpen .zero abcdefgh 1 1 65
    (semOpen first.1 abcdefgh 1 1 66).2 ≠ first.2 ∧
      (semOpen first.1 abcdefghA 1 1 66).2 = first.2 := by
  decide

end OsSolutions
