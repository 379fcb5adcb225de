import OsSolutions.Verification.Slot.Steps
import OsSolutions.Verification.Sem.Count
import Mathlib.Data.List.Permutation

/-! # When a reset is atomic

Between its two sections a reset has stored the count but not yet the maximum. Only
`sem_post` reads the maximum, so the reset takes effect at its first section as long as
every post in between is decided alike by both maxima. -/

namespace OsSolutions.Slot

open Transition

variable {P : Type*}

def Pc.inReset : Pc → Bool
  | .resetCount _ _ | .resetTest _ _ | .resetMax _ _ => true
  | _ => false

/-- The process has stored the count of its reset and may still have to raise the maximum. -/
def InGap (st : State P) (p : P) (newVal newMaxVal : Int32) : Prop :=
  st.pc p = .resetTest newVal newMaxVal ∨ st.pc p = .resetMax newVal newMaxVal

/-- A post inside the gap of a reset is refused by the old maximum if and only if it is
refused by the new one. -/
def GapAgrees (st : State P) : Act P → Prop
  | .post _ => ∀ p newVal newMaxVal, InGap st p newVal newMaxVal →
      (st.sem.count = st.sem.maxVal ↔ st.sem.count = newMaxVal)
  | _ => True

def Act.isReset : Act P → Bool
  | .reset _ _ _ => true
  | _ => false

/-! ## Sequential explanations -/

/-- A reset among the finished calls stored no value above its own maximum. -/
def Return.Ordered (r : Return P) : Prop :=
  ∀ pid newVal newMaxVal, r.call = .reset pid newVal newMaxVal → newVal ≤ newMaxVal

/-- Some order of the finished calls, executed one by one from `s₀`, returns the same
values and leaves `sem`. -/
def Explained (s₀ : Sem) (returned : List (Return P)) (sem : Sem) : Prop :=
  ∃ order : List (Return P), order.Perm returned ∧ run replay s₀ order = some sem ∧
    ∀ r ∈ order, r.Ordered

theorem Explained.extend {s₀ sem sem' : Sem} {returned : List (Return P)}
    (h : Explained s₀ returned sem) (rs : List (Return P)) (hrun : run replay sem rs = some sem')
    (hrs : ∀ r ∈ rs, r.Ordered) : Explained s₀ (rs ++ returned) sem' := by
  obtain ⟨order, hperm, horder, hord⟩ := h
  refine ⟨order ++ rs, ?_, ?_, ?_⟩
  · exact (hperm.append_right rs).trans List.perm_append_comm
  · rw [run_append, horder]
    exact hrun
  · intro r hr
    rcases List.mem_append.mp hr with hr | hr
    · exact hord r hr
    · exact hrs r hr

theorem Explained.perm {s₀ sem : Sem} {returned returned' : List (Return P)}
    (h : Explained s₀ returned sem) (hp : returned.Perm returned') :
    Explained s₀ returned' sem := by
  obtain ⟨order, hperm, hrun, hord⟩ := h
  exact ⟨order, hperm.trans hp, hrun, hord⟩

/-- Replayed calls keep the range of the count. -/
theorem replay_inRange {s s' : Sem} {r : Return P} (h : s.InRange) (hr : r.Ordered)
    (hs : replay s r = some s') : s'.InRange := by
  have hcall : callStep s r.call = some s' := by
    unfold replay at hs
    split at hs
    · rename_i t val hexec
      split at hs
      · simpa [callStep, hexec] using hs
      · cases hs
    · cases hs
  apply (callStep_inRange_iff s r.call s' h hcall).mpr
  cases hc : r.call with
  | reset pid newVal newMaxVal => exact fun _ _ => .inr (hr pid newVal newMaxVal hc)
  | _ => trivial

theorem Explained.inRange {s₀ sem : Sem} {returned : List (Return P)} (h₀ : s₀.InRange)
    (h : Explained s₀ returned sem) : sem.InRange := by
  obtain ⟨order, hperm, hrun, hord⟩ := h
  clear hperm
  induction order generalizing s₀ with
  | nil =>
      obtain rfl : s₀ = sem := by simpa using hrun
      exact h₀
  | cons r order ih =>
      obtain ⟨s, hs, hrest⟩ := Option.bind_eq_some_iff.mp hrun
      exact ih (replay_inRange h₀ (hord r (by simp)) hs) hrest fun q hq => hord q (by simp [hq])

/-! ## Steps outside the reset -/

variable [DecidableEq P] {pid : P → Int32} {st st' : State P} {a : Act P}

/-- Processes inside a reset stay where they are, and none enters or leaves one. -/
def SameResets (pc pc' : P → Pc) : Prop :=
  ∀ q, (pc q).inReset = true ∨ (pc' q).inReset = true → pc' q = pc q

omit [DecidableEq P] in
theorem SameResets.inReset_eq {pc pc' : P → Pc} (h : SameResets pc pc') (q : P) :
    (pc' q).inReset = (pc q).inReset := by
  by_cases hq : (pc q).inReset = true ∨ (pc' q).inReset = true
  · rw [h q hq]
  · have hq' : (pc q).inReset = false ∧ (pc' q).inReset = false := by simpa using hq
    rw [hq'.1, hq'.2]

theorem SameResets.goto {pc : P → Pc} {p : P} {c : Pc} (h : SameResets pc st.pc)
    (hp : (pc p).inReset = false) (hc : c.inReset = false) :
    SameResets pc (st.goto p c).pc := by
  intro q hq
  by_cases hqp : q = p
  · subst q
    rw [State.goto_pc_self, hp, hc] at hq
    simp at hq
  · rw [State.goto_pc_of_ne c hqp] at hq ⊢
    exact h q hq

omit [DecidableEq P] in
theorem sameResets_wakeup (pc : P → Pc) : SameResets pc (wakeup pc) := by
  intro q _
  cases hq : pc q with
  | waiting b => simp_all [wakeup, Pc.inReset]
  | _ => simp [wakeup, hq]

omit [DecidableEq P] in
theorem sameResets_wakeIf (st : State P) (wake : Bool) :
    SameResets st.pc (st.wakeIf wake).pc := by
  cases wake with
  | false => exact fun _ _ => rfl
  | true => exact sameResets_wakeup st.pc

/-- What a step outside the reset does, with the maximum of the slot read as `m`: it adds
finished calls that replay on such a slot. -/
structure Quiet (m : Int32) (st st' : State P) : Prop where
  maxVal_eq : st'.sem.maxVal = st.sem.maxVal
  bytes_eq : st'.sem.bytes = st.sem.bytes
  resets : SameResets st.pc st'.pc
  replays : ∃ rs, st'.returned = rs ++ st.returned ∧
    run replay (semResetMax m st.sem) rs = some (semResetMax m st'.sem) ∧ ∀ r ∈ rs, r.Ordered

/-- A step that finishes one call, which replays with the maximum `m`. -/
theorem Quiet.of_finish_wake {m : Int32} {sem : Sem} {p : P} {call : Call} {val : ℤ}
    (wake : Bool) (hp : (st.pc p).inReset = false)
    (hsem : sem.maxVal = st.sem.maxVal ∧ sem.bytes = st.sem.bytes)
    (hcall : ∀ pid v w, call ≠ .reset pid v w)
    (hexec : call.exec (semResetMax m st.sem) = some (semResetMax m sem, val)) :
    Quiet m st ((({ st with sem := sem } : State P).wakeIf wake).finish p call val) := by
  refine ⟨?_, ?_, ?_, [⟨p, call, val⟩], ?_, ?_, ?_⟩
  · simpa using hsem.1
  · simpa using hsem.2
  · exact (sameResets_wakeIf { st with sem := sem } wake).goto hp rfl
  · simp
  · simp [run_cons, replay, hexec]
  · intro r hr pid v w hc
    obtain rfl : r = ⟨p, call, val⟩ := by simpa using hr
    exact absurd hc (hcall pid v w)

theorem Quiet.of_finish {m : Int32} {sem : Sem} {p : P} {call : Call} {val : ℤ}
    (hp : (st.pc p).inReset = false)
    (hsem : sem.maxVal = st.sem.maxVal ∧ sem.bytes = st.sem.bytes)
    (hcall : ∀ pid v w, call ≠ .reset pid v w)
    (hexec : call.exec (semResetMax m st.sem) = some (semResetMax m sem, val)) :
    Quiet m st (({ st with sem := sem } : State P).finish p call val) :=
  Quiet.of_finish_wake false hp hsem hcall hexec

/-- A step that only moves a process between places outside the reset. -/
theorem Quiet.of_goto {m : Int32} {p : P} {c : Pc} {killed : P → Bool}
    (hp : (st.pc p).inReset = false) (hc : c.inReset = false) :
    Quiet m st { st.goto p c with killed := killed } :=
  ⟨rfl, rfl, SameResets.goto (fun _ _ => rfl) hp hc, [], rfl, rfl, by simp⟩

omit [DecidableEq P] in
theorem inReset_of_passes {p : P} (h : Passes st a p) : (st.pc p).inReset = false := by
  rcases h with ⟨_, hp⟩ | ⟨_, hp⟩
  · rw [hp]
    rfl
  · rw [hp]
    rfl

theorem quiet_step {m : Int32} (hs : step pid st a = some st') (ha : a.isReset = false)
    (hres : ∀ p, a = .resume p → (st.pc p).inReset = false)
    (hpost : ∀ p, a = .post p → (st.sem.count = st.sem.maxVal ↔ st.sem.count = m)) :
    Quiet m st st' := by
  have hidle : ∀ {p}, st.pc p = .idle → (st.pc p).inReset = false := by
    intro p hp
    rw [hp]
    rfl
  cases step_cases hs with
  | taken hp hc =>
      apply Quiet.of_finish (inReset_of_passes hp)
      · exact ⟨rfl, rfl⟩
      · simp
      · simp [Call.exec, semWaitPass, semResetMax, hc]
  | givenUp hp hc hk =>
      apply Quiet.of_finish (inReset_of_passes hp)
      · exact ⟨rfl, rfl⟩
      · simp
      · simp [Call.exec, semWaitPass, semResetMax, hc]
  | sleeps hp hc hk => exact Quiet.of_goto (inReset_of_passes hp) rfl
  | tryTaken hp hc =>
      apply Quiet.of_finish (hidle hp)
      · exact ⟨rfl, rfl⟩
      · simp
      · simp [Call.exec, semTryWait, semResetMax, hc]
  | tryFailed hp hc =>
      apply Quiet.of_finish (hidle hp)
      · exact ⟨rfl, rfl⟩
      · simp
      · simp [Call.exec, semTryWait, semResetMax, hc]
  | @posted p hp hm =>
      have hne : st.sem.count ≠ m := fun he => hm ((hpost p rfl).mpr he)
      apply Quiet.of_finish_wake _ (hidle hp)
      · exact ⟨rfl, rfl⟩
      · simp
      · simp [Call.exec, semPost, semResetMax, hne]
  | @postRefused p hp hm =>
      have he : st.sem.count = m := (hpost p rfl).mp hm
      apply Quiet.of_finish (hidle hp)
      · exact ⟨rfl, rfl⟩
      · simp
      · simp [Call.exec, semPost, semResetMax, he]
  | resetRefused hp hg => cases ha
  | resetEnters hp hg => cases ha
  | @countSet p _ _ hp => simpa [hp, Pc.inReset] using hres p rfl
  | @maxRaises p _ _ hp hm => simpa [hp, Pc.inReset] using hres p rfl
  | @maxStays p _ _ hp hm => simpa [hp, Pc.inReset] using hres p rfl
  | @maxSet p _ _ hp => simpa [hp, Pc.inReset] using hres p rfl
  | @killed p =>
      by_cases hp : (st.pc p).inReset = true
      · refine ⟨rfl, rfl, ?_, [], rfl, rfl, by simp⟩
        intro q _
        have hne : st.pc p ≠ .waiting true := by
          intro hw
          simp [hw, Pc.inReset] at hp
        by_cases hqp : q = p
        · subst q
          simp [hne]
        · exact State.goto_pc_of_ne _ hqp
      · apply Quiet.of_goto
        · simpa using hp
        · split
          · rfl
          · simpa using hp

/-! ## The one reset of a run -/

section Reset

variable {s₀ : Sem} {o : P} {newVal newMaxVal : Int32}

/-- No process but `o` is inside a reset. -/
def Others (o : P) (st : State P) : Prop := ∀ q, q ≠ o → (st.pc q).inReset = false

/-- The states of a run with one reset, by `o`: the reset counts as executed from its first
section on, with the maximum it is going to leave. -/
inductive Progress (pid : P → Int32) (s₀ : Sem) (o : P) (newVal newMaxVal : Int32)
    (st : State P) : Prop
  | before : st.pc o = .resetCount newVal newMaxVal → st.sem.ownerPid = pid o →
      st.sem.maxVal ≤ newMaxVal → Explained s₀ st.returned st.sem →
      Progress pid s₀ o newVal newMaxVal st
  | gap : InGap st o newVal newMaxVal → st.sem.maxVal ≤ newMaxVal →
      Explained s₀ (⟨o, .reset (pid o) newVal newMaxVal, 0⟩ :: st.returned)
        (semResetMax newMaxVal st.sem) →
      Progress pid s₀ o newVal newMaxVal st
  | done : (st.pc o).inReset = false → Explained s₀ st.returned st.sem →
      Progress pid s₀ o newVal newMaxVal st

omit [DecidableEq P] in
/-- The calls finished by a quiet step come after those already explained. -/
theorem Quiet.explained {m : Int32} (h : Quiet m st st') (owed : List (Return P))
    (he : Explained s₀ (owed ++ st.returned) (semResetMax m st.sem)) :
    Explained s₀ (owed ++ st'.returned) (semResetMax m st'.sem) := by
  obtain ⟨rs, hret, hrun, hord⟩ := h.replays
  rw [hret]
  exact (he.extend rs hrun hord).perm (List.perm_append_comm_assoc rs owed st.returned)

omit [DecidableEq P] in
/-- Read with its own maximum, the slot is not in a gap. -/
theorem Quiet.explained_self (h : Quiet st.sem.maxVal st st')
    (he : Explained s₀ st.returned st.sem) : Explained s₀ st'.returned st'.sem := by
  have hsame : semResetMax st.sem.maxVal st'.sem = st'.sem := by
    simp [semResetMax, ← h.maxVal_eq]
  have := h.explained [] he
  rwa [hsame] at this

omit [DecidableEq P] in
theorem guard_accepts {sem : Sem} (howner : sem.ownerPid = pid o) (hv : 0 ≤ newVal)
    (hm : sem.maxVal ≤ newMaxVal) : semResetRefuses (pid o) newVal newMaxVal sem = false := by
  simp [semResetRefuses, howner]
  grind

omit [DecidableEq P] in
/-- The reset, executed at once on a slot that its guard accepts. -/
theorem replay_reset {sem : Sem} (howner : sem.ownerPid = pid o) (hv : 0 ≤ newVal)
    (hm : sem.maxVal ≤ newMaxVal) :
    replay sem (⟨o, .reset (pid o) newVal newMaxVal, 0⟩ : Return P) =
      some (semResetMax newMaxVal { sem with count := newVal }) := by
  have hguard := guard_accepts howner hv hm
  have hreset : semReset (pid o) newVal newMaxVal sem =
      (semResetMax newMaxVal { sem with count := newVal }, 0) := by
    by_cases hlt : sem.maxVal < newMaxVal
    · simp [semReset, hguard, hv, semResetCount, semResetMax, hlt]
    · have heq : sem.maxVal = newMaxVal := by grind
      simp [semReset, hguard, hv, semResetCount, semResetMax, heq]
  simp [replay, Call.exec, hreset]

omit [DecidableEq P] in
theorem Others.of_sameResets (h : Others o st) (hr : SameResets st.pc st'.pc) : Others o st' :=
  fun q hq => (hr.inReset_eq q).trans (h q hq)

theorem Others.goto_self {c : Pc} (h : Others o st) : Others o (st.goto o c) := by
  intro q hq
  rw [State.goto_pc_of_ne c hq]
  exact h q hq

theorem reset_enters (hv : 0 ≤ newVal) (hcalm : ∀ q, (st.pc q).inReset = false)
    (howner : st.sem.ownerPid = pid o) (hm : st.sem.maxVal ≤ newMaxVal)
    (he : Explained s₀ st.returned st.sem)
    (hs : step pid st (.reset o newVal newMaxVal) = some st') :
    Others o st' ∧ Progress pid s₀ o newVal newMaxVal st' := by
  have hguard := guard_accepts howner hv hm
  by_cases hp : st.pc o = .idle
  · obtain rfl : st.goto o (.resetCount newVal newMaxVal) = st' := by
      simpa [step, hp, hguard, hv] using hs
    have hothers : Others o st := fun q _ => hcalm q
    exact ⟨hothers.goto_self, .before (by simp) howner hm he⟩
  · simp [step, hp] at hs

theorem resume_before_gap (hv : 0 ≤ newVal) (hvm : newVal ≤ newMaxVal)
    (hp : st.pc o = .resetCount newVal newMaxVal) (howner : st.sem.ownerPid = pid o)
    (hm : st.sem.maxVal ≤ newMaxVal) (he : Explained s₀ st.returned st.sem)
    (hs : step pid st (.resume o) = some st') :
    Progress pid s₀ o newVal newMaxVal st' := by
  simp only [step, hp, semResetCount, Option.some.injEq] at hs
  subst hs
  apply Progress.gap
  · left
    simp
  · simpa using hm
  · simp only [State.goto_sem, State.wakeIf_sem, State.goto_returned, State.wakeIf_returned]
    apply he.extend [_]
    · simp [run_cons, replay_reset howner hv hm]
    · intro r hr pid v w hc
      obtain rfl : r = ⟨o, .reset _ newVal newMaxVal, 0⟩ := by simpa using hr
      cases hc
      exact hvm

theorem resume_gap (hp : InGap st o newVal newMaxVal) (hm : st.sem.maxVal ≤ newMaxVal)
    (he : Explained s₀ (⟨o, .reset (pid o) newVal newMaxVal, 0⟩ :: st.returned)
      (semResetMax newMaxVal st.sem))
    (hs : step pid st (.resume o) = some st') :
    Progress pid s₀ o newVal newMaxVal st' := by
  rcases hp with hp | hp
  · by_cases hlt : st.sem.maxVal < newMaxVal
    · simp only [step, hp, hlt, if_true, Option.some.injEq] at hs
      subst hs
      exact .gap (.inr (by simp)) hm he
    · simp only [step, hp, hlt, if_false, Option.some.injEq] at hs
      subst hs
      have hsame : semResetMax newMaxVal st.sem = st.sem := by
        have heq : st.sem.maxVal = newMaxVal := by grind
        simp [semResetMax, ← heq]
      refine .done (by simp [Pc.inReset]) ?_
      rwa [hsame] at he
  · simp only [step, hp, Option.some.injEq] at hs
    subst hs
    exact .done (by simp [Pc.inReset]) he

omit [DecidableEq P] in
theorem not_passes {p : P} (hp : (st.pc o).inReset = true) : ¬ Passes st (.resume o) p := by
  intro hq
  have hfree := inReset_of_passes hq
  rcases hq with ⟨hr, _⟩ | ⟨hr, _⟩
  · cases hr
  · cases hr
    simp [hp] at hfree

theorem others_resume (h : Others o st) (hp : (st.pc o).inReset = true)
    (hs : step pid st (.resume o) = some st') : Others o st' := by
  cases step_cases hs with
  | taken hq => exact absurd hq (not_passes hp)
  | givenUp hq => exact absurd hq (not_passes hp)
  | sleeps hq => exact absurd hq (not_passes hp)
  | @countSet _ v w =>
      apply Others.goto_self
      exact h.of_sameResets (sameResets_wakeIf { st with sem := { st.sem with count := v } } _)
  | maxRaises => exact h.goto_self
  | maxStays => exact h.goto_self
  | maxSet => exact h.goto_self

theorem progress_step (hv : 0 ≤ newVal) (hvm : newVal ≤ newMaxVal)
    (h : Others o st ∧ Progress pid s₀ o newVal newMaxVal st) (ha : a.isReset = false)
    (hok : GapAgrees st a) (hs : step pid st a = some st') :
    Others o st' ∧ Progress pid s₀ o newVal newMaxVal st' := by
  obtain ⟨hothers, hprog⟩ := h
  by_cases hao : a = .resume o ∧ (st.pc o).inReset = true
  · obtain ⟨rfl, hin⟩ := hao
    refine ⟨others_resume hothers hin hs, ?_⟩
    cases hprog with
    | before hp howner hm he => exact resume_before_gap hv hvm hp howner hm he hs
    | gap hp hm he => exact resume_gap hp hm he hs
    | done hp he => simp [hp] at hin
  · have hres : ∀ p, a = .resume p → (st.pc p).inReset = false := by
      intro p hap
      by_cases hpo : p = o
      · subst hpo
        simpa [hap] using hao
      · exact hothers p hpo
    cases hprog with
    | before hp howner hm he =>
        have hq : Quiet st.sem.maxVal st st' := quiet_step hs ha hres fun _ _ => Iff.rfl
        refine ⟨hothers.of_sameResets hq.resets, .before ?_ ?_ ?_ (hq.explained_self he)⟩
        · rw [hq.resets o (.inl (by simp [hp, Pc.inReset])), hp]
        · rw [Sem.ownerPid_congr hq.bytes_eq, howner]
        · rwa [hq.maxVal_eq]
    | gap hp hm he =>
        have hq : Quiet newMaxVal st st' := by
          apply quiet_step hs ha hres
          rintro p rfl
          exact hok o newVal newMaxVal hp
        have hpc : st'.pc o = st.pc o := by
          apply hq.resets o
          rcases hp with hp | hp <;> simp [hp, Pc.inReset]
        refine ⟨hothers.of_sameResets hq.resets, .gap ?_ ?_ (hq.explained [_] he)⟩
        · simpa only [InGap, hpc] using hp
        · rwa [hq.maxVal_eq]
    | done hp he =>
        have hq : Quiet st.sem.maxVal st st' := quiet_step hs ha hres fun _ _ => Iff.rfl
        exact ⟨hothers.of_sameResets hq.resets,
          .done ((hq.resets.inReset_eq o).trans hp) (hq.explained_self he)⟩

/-- Before the reset is called. -/
theorem calm_step (h : (∀ q, (st.pc q).inReset = false) ∧ Explained s₀ st.returned st.sem ∧
      st.sem.maxVal = s₀.maxVal ∧ st.sem.bytes = s₀.bytes) (ha : a.isReset = false)
    (hs : step pid st a = some st') :
    (∀ q, (st'.pc q).inReset = false) ∧ Explained s₀ st'.returned st'.sem ∧
      st'.sem.maxVal = s₀.maxVal ∧ st'.sem.bytes = s₀.bytes := by
  obtain ⟨hcalm, he, hm, hb⟩ := h
  have hq : Quiet st.sem.maxVal st st' :=
    quiet_step hs ha (fun p _ => hcalm p) fun _ _ => Iff.rfl
  exact ⟨fun q => (hq.resets.inReset_eq q).trans (hcalm q), hq.explained_self he,
    hq.maxVal_eq.trans hm, hq.bytes_eq.trans hb⟩

end Reset

/-- In a run with one reset, by the owner, the finished calls and the slot they leave are
those of a sequential order, if every post inside the gap is decided alike by both maxima. -/
theorem semReset_atomic (pid : P → Int32) (s₀ : Sem) (o : P) (newVal newMaxVal : Int32)
    (before after : List (Act P)) (st : State P) (h₀ : s₀.InRange)
    (howner : s₀.ownerPid = pid o) (hv : 0 ≤ newVal) (hvm : newVal ≤ newMaxVal)
    (hm : s₀.maxVal ≤ newMaxVal) (hbefore : ∀ a ∈ before, a.isReset = false)
    (hafter : ∀ a ∈ after, a.isReset = false)
    (hrun : run (step pid) (start s₀) (before ++ .reset o newVal newMaxVal :: after) = some st)
    (hok : Meets (step pid) GapAgrees (start s₀) (before ++ .reset o newVal newMaxVal :: after))
    (hend : (st.pc o).inReset = false) :
    (∃ order : List (Return P), order.Perm st.returned ∧ run replay s₀ order = some st.sem) ∧
      st.sem.count ≤ st.sem.maxVal := by
  rw [run_append, Option.bind_eq_some_iff] at hrun
  obtain ⟨st₁, hrun₁, hrun⟩ := hrun
  rw [run_cons, Option.bind_eq_some_iff] at hrun
  obtain ⟨st₂, hreset, hrun₂⟩ := hrun
  have hok₁ := ((meets_append _ _ _).mp hok).1
  have hok₂ := (((meets_append _ _ _).mp hok).2 st₁ hrun₁ st₂ hreset).2
  have hstart : Explained s₀ (start s₀ : State P).returned (start s₀ : State P).sem :=
    ⟨[], .rfl, rfl, by simp⟩
  obtain ⟨hcalm, he, hmax, hbytes⟩ := run_invariant
    ⟨fun _ => rfl, hstart, rfl, rfl⟩ hok₁
    (fun _ a ha _ h _ hs => calm_step h (hbefore a ha) hs) hrun₁
  have hle : st₁.sem.maxVal ≤ newMaxVal := hmax ▸ hm
  have howner₁ : st₁.sem.ownerPid = pid o := (Sem.ownerPid_congr hbytes).trans howner
  have hentered : Others o st₂ ∧ Progress pid s₀ o newVal newMaxVal st₂ :=
    reset_enters hv hcalm howner₁ hle he hreset
  have hprog : Others o st ∧ Progress pid s₀ o newVal newMaxVal st := by
    apply run_invariant (P := fun st => Others o st ∧ Progress pid s₀ o newVal newMaxVal st)
      hentered hok₂ ?_ hrun₂
    exact fun _ a ha _ h hg hs => progress_step hv hvm h (hafter a ha) hg hs
  have hdone : Explained s₀ st.returned st.sem := by
    cases hprog.2 with
    | before hp => simp [hp, Pc.inReset] at hend
    | gap hp => rcases hp with hp | hp <;> simp [hp, Pc.inReset] at hend
    | done _ he => exact he
  obtain ⟨order, hperm, horder, _⟩ := id hdone
  exact ⟨⟨order, hperm, horder⟩, (hdone.inRange h₀).2⟩

/-- The owner raises the count and the maximum to 3 while process 1 posts before, takes a
unit in the gap, and posts after. -/
theorem semReset_atomic_raised :
    ∃ st : State (Fin 2), (∃ order : List (Return (Fin 2)), order.Perm st.returned ∧
        run replay (Sem.zero.opened ⟨[115], by decide⟩ 0 1 1) order = some st.sem) ∧
      st.sem.count ≤ st.sem.maxVal :=
  ⟨_, semReset_atomic (fun p => if p = 0 then 1 else 2) _ 0 3 3 [.post 1]
    [.resume 0, .tryWait 1, .resume 0, .resume 0, .tryWait 1] _
    ⟨by decide, by decide⟩ (by decide) (by decide) (by decide) (by decide) (by decide)
    (by decide) rfl
    (by
      apply Meets.cons rfl
      · intro p v w hp
        simp [InGap, start] at hp
      · exact .cons rfl trivial (.cons rfl trivial (.cons rfl trivial (.cons rfl trivial
          (.cons rfl trivial (.cons rfl trivial trivial))))))
    (by decide)⟩

/-- A post in the gap passes the maximum that the owner is about to set: the count ends at
6 and the maximum at 5, which no order of the two calls explains. -/
theorem semReset_post_in_gap :
    ∃ st : State (Fin 2),
      run (step fun p => if p = 0 then 1 else 2) (start (Sem.zero.opened ⟨[115], by decide⟩ 0 1 1))
        [.reset 0 5 5, .resume 0, .post 1, .resume 0, .resume 0] = some st ∧
      st.sem.count = 6 ∧ st.sem.maxVal = 5 ∧
      ∀ order : List (Return (Fin 2)), order.Perm st.returned →
        run replay (Sem.zero.opened ⟨[115], by decide⟩ 0 1 1) order ≠ some st.sem := by
  refine ⟨_, rfl, by decide, by decide, ?_⟩
  intro order hperm horder
  have hno : ∀ order ∈ List.permutations'
      [⟨0, .reset 1 5 5, 0⟩, (⟨1, .post, 0⟩ : Return (Fin 2))],
      (run replay (Sem.zero.opened ⟨[115], by decide⟩ 0 1 1) order).map Sem.count ≠ some 6 := by
    decide
  exact hno order (List.mem_permutations'.mpr hperm) (congrArg (Option.map Sem.count) horder)

end OsSolutions.Slot
