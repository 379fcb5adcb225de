import OsSolutions.Verification.Ps.Entries

/-! # What a call tells about one process

The two lookups and the last read may each find another process behind the same pid. They agree
as long as nobody gives the process back that the first lookup has found. -/

namespace OsSolutions.Ps

open Transition

variable {t t' : Table} {p q : Fin NPROC} {pid : Int32} {s s' : Call} {a : Act}

/-- `c` is the pid of a child of a process with the pid `pid`. -/
def ChildPid (t : Table) (pid : Int32) (c : UInt32) : Prop :=
  ∃ p q, (t.proc p).pid = pid ∧ (t.proc p).state ≠ .unused ∧ (t.proc q).parent = some p ∧
    (t.proc q).state ≠ .unused ∧ (t.proc q).pid.toUInt32 = c

namespace Call

/-- Each of the first `n` stored pids was that of a child at some moment of the call. -/
def Stored (pid : Int32) (s : Call) (n : ℕ) : Prop :=
  ∀ i < n, ∃ t ∈ s.seen, ChildPid t pid (s.data.pids i)

/-- A call that does not fail tells about the process with the pid `pid`. -/
def Consistent (pid : Int32) (s : Call) : Prop :=
  ∀ ret, s.pc = .returned ret → ret ≠ -1 →
    ret = pid ∧ s.data.pid = pid.toUInt32 ∧ s.Stored pid s.data.chldNum.toNat

end Call

namespace CallPc

/-- What the first lookup has found, as long as the second one has not been made. -/
def searching : CallPc → Option (Fin NPROC)
  | .test p => p
  | .copy p | .second p => some p
  | _ => none

/-- What the first lookup has found, from the test to the last read. -/
def holding : CallPc → Option (Fin NPROC)
  | .copy p | .second p | .visit p _ _ _ | .last p => some p
  | _ => none

def result : CallPc → Option Int32
  | .returned ret => some ret
  | _ => none

theorem returned_of_result {pc : CallPc} {ret : Int32} (h : pc.result = some ret) :
    pc = .returned ret := by
  cases pc <;> simp_all [result]

end CallPc

/-- Up to the second lookup no `fork` takes the entry that was found or hands out the pid that
was asked for, nor does a `wait` if that is the pid of the entries given back. From the test
on no `wait` gives that entry back. -/
def Calm (pid : Int32) (s : Call) : CallAct → Prop
  | .other (.fork _ _ _) =>
      ∀ p, s.pc.searching = some p → s.table.freeSlot ≠ some p ∧ s.table.nextpid ≠ pid
  | .other (.wait w) =>
      (∀ p, s.pc.searching = some p → pid ≠ 0) ∧
        ∀ p, s.pc.holding = some p → s.table.deadChild w ≠ some p
  | _ => True

/-! ## What the call relies on -/

/-- No entry before `p` has the pid. -/
def First (t : Table) (pid : Int32) (p : Fin NPROC) : Prop := ∀ q < p, (t.proc q).pid ≠ pid

def Holds (t : Table) (pid : Int32) (p : Fin NPROC) : Prop :=
  (t.proc p).pid = pid ∧ (t.proc p).state ≠ .unused

theorem getprocbypid_eq_some : t.getprocbypid pid = some p ↔
    (t.proc p).pid = pid ∧ First t pid p := by
  rw [Table.getprocbypid, find?_finRange_eq_some]
  simp [First]

/-- A call that hands out another pid creates no earlier entry with this one. -/
theorem First.other (h : First t pid p) (hs : step t a = some t')
    (hfork : ∀ q k c, a = .fork q k c → t.nextpid ≠ pid) (hwait : ∀ w, a = .wait w → pid ≠ 0) :
    First t' pid p := by
  intro q hq
  cases step_entry hs q with
  | kept hpid => exact hpid ▸ h q hq
  | taken r k c ha _ hpid => exact hpid ▸ hfork r k c ha
  | gone w ha _ hpid => exact hpid ▸ (hwait w ha).symm

theorem Holds.other (h : Holds t pid p) (hs : step t a = some t')
    (hwait : ∀ w, a = .wait w → t.deadChild w ≠ some p) : Holds t' pid p := by
  cases step_entry hs p with
  | kept hpid hstate => exact ⟨hpid.trans h.1, hstate.not.mpr h.2⟩
  | taken _ _ _ _ hslot => exact absurd (Table.unused_of_freeSlot hslot) h.2
  | gone w ha hdead => exact absurd hdead (hwait w ha)

/-- What is known at each point of the call. -/
def Phase (pid : Int32) (s : Call) : Prop :=
  match s.pc with
  | .lookup | .test none => True
  | .test (some p) =>
      First s.table pid p ∧ ((s.table.proc p).state ≠ .unused → (s.table.proc p).pid = pid)
  | .copy p => First s.table pid p ∧ Holds s.table pid p
  | .second p => First s.table pid p ∧ Holds s.table pid p ∧ s.data.pid = pid.toUInt32
  | .visit p curproc slots n =>
      Holds s.table pid p ∧ s.data.pid = pid.toUInt32 ∧ curproc = some p ∧
        n + slots.length ≤ NPROC ∧ s.Stored pid n
  | .last p =>
      Holds s.table pid p ∧ s.data.pid = pid.toUInt32 ∧ s.Stored pid s.data.chldNum.toNat
  | .returned ret =>
      ret ≠ -1 → ret = pid ∧ s.data.pid = pid.toUInt32 ∧ s.Stored pid s.data.chldNum.toNat

structure CallInv (pid : Int32) (s : Call) : Prop where
  current : s.table ∈ s.seen
  parents : ParentsUsed s.table
  phase : Phase pid s

theorem callInv_start (h : ParentsUsed t) (pid : Int32) (data : ProcData) :
    CallInv pid (Call.start t data) := ⟨List.mem_singleton_self t, h, trivial⟩

theorem CallInv.consistent (h : CallInv pid s) : s.Consistent pid := by
  intro ret hret
  have hphase := h.phase
  rw [Phase, hret] at hphase
  exact hphase

/-! ## The steps -/

/-- A turn of the loop stores the pid of a child. -/
theorem Call.Stored.turn {n : ℕ} (h : s.Stored pid n) (hcur : s.table ∈ s.seen)
    (hused : ParentsUsed s.table) (hp : Holds s.table pid p)
    (hq : (s.table.proc q).parent = some p) :
    { s with data := { s.data with
      pids := Function.update s.data.pids n (s.table.proc q).pid.toUInt32 } }.Stored pid
        (n + 1) := by
  intro i hi
  by_cases hin : i = n
  · subst hin
    refine ⟨s.table, hcur, p, q, hp.1, hp.2, hq, ?_, by simp⟩
    intro hunused
    rw [hused q hunused] at hq
    cases hq
  · simpa [hin] using h i (by omega)

theorem CallInv.next (h : CallInv pid s) (hs : s.next pid = some s') : CallInv pid s' := by
  have hphase := h.phase
  unfold Call.next at hs
  unfold Phase at hphase
  cases hpc : s.pc with
  | lookup =>
      simp only [hpc, Option.some.injEq] at hs
      subst hs
      refine ⟨h.current, h.parents, ?_⟩
      cases hfind : s.table.getprocbypid pid with
      | none => trivial
      | some p =>
          obtain ⟨hpid, hfirst⟩ := getprocbypid_eq_some.mp hfind
          exact ⟨hfirst, fun _ => hpid⟩
  | test found =>
      cases found with
      | none =>
          simp only [hpc, Option.some.injEq] at hs
          subst hs
          exact ⟨h.current, h.parents, fun hret => absurd rfl hret⟩
      | some p =>
          simp only [hpc] at hs hphase
          split at hs
          · obtain rfl := Option.some.inj hs
            exact ⟨h.current, h.parents, fun hret => absurd rfl hret⟩
          · rename_i hused
            obtain rfl := Option.some.inj hs
            exact ⟨h.current, h.parents, hphase.1, hphase.2 hused, hused⟩
  | copy p =>
      simp only [hpc, Option.some.injEq] at hs hphase
      subst hs
      exact ⟨h.current, h.parents, hphase.1, hphase.2, congrArg Int32.toUInt32 hphase.2.1⟩
  | second p =>
      simp only [hpc, Option.some.injEq] at hs hphase
      subst hs
      obtain ⟨hfirst, hholds, hdata⟩ := hphase
      refine ⟨h.current, h.parents, hholds, hdata, ?_, by simp, by simp [Call.Stored]⟩
      exact getprocbypid_eq_some.mpr ⟨hholds.1, hfirst⟩
  | visit p curproc slots n =>
      simp only [hpc] at hs hphase
      obtain ⟨hholds, hdata, rfl, hroom, hstored⟩ := hphase
      cases slots with
      | nil =>
          simp only [Option.some.injEq] at hs
          subst hs
          have hn : (UInt32.ofNat n).toNat = n := by
            apply UInt32.toNat_ofNat_of_lt'
            exact Nat.lt_of_le_of_lt hroom (by decide)
          refine ⟨h.current, h.parents, hholds, hdata, ?_⟩
          show s.Stored pid (UInt32.ofNat n).toNat
          rw [hn]
          exact hstored
      | cons q slots =>
          rw [List.length_cons] at hroom
          by_cases hq : (s.table.proc q).parent = some p
          · simp only [Table.childrenTurn, hq, if_true, Option.some.injEq] at hs
            subst hs
            exact ⟨h.current, h.parents, hholds, hdata, rfl, by omega,
              hstored.turn h.current h.parents hholds hq⟩
          · simp only [Table.childrenTurn, hq, if_false, Option.some.injEq] at hs
            subst hs
            exact ⟨h.current, h.parents, hholds, hdata, rfl, by omega, hstored⟩
  | last p =>
      simp only [hpc, Option.some.injEq] at hs hphase
      subst hs
      exact ⟨h.current, h.parents, fun _ => ⟨hphase.1.1, hphase.2⟩⟩
  | returned ret =>
      simp only [hpc] at hs
      cases hs

/-- The calls of other processes leave what the call has stored, and add a moment. -/
theorem Call.Stored.other {n : ℕ} (h : s.Stored pid n) (t : Table) :
    { s with table := t, seen := s.seen ++ [t] }.Stored pid n := by
  intro i hi
  obtain ⟨u, hu, hchild⟩ := h i hi
  exact ⟨u, by simp [hu], hchild⟩

theorem CallInv.other (h : CallInv pid s) (hcalm : Calm pid s (.other a))
    (hs : step s.table a = some t) :
    CallInv pid { s with table := t, seen := s.seen ++ [t] } := by
  refine ⟨by simp, step_parentsUsed h.parents hs, ?_⟩
  have hphase := h.phase
  have hfirst : ∀ p, s.pc.searching = some p → First s.table pid p → First t pid p := by
    intro p hp hf
    apply hf.other hs
    · rintro q k c rfl
      exact (hcalm p hp).2
    · rintro w rfl
      exact hcalm.1 p hp
  have hholds : ∀ p, s.pc.holding = some p → Holds s.table pid p → Holds t pid p := by
    intro p hp hh
    apply hh.other hs
    rintro w rfl
    exact hcalm.2 p hp
  unfold Phase at hphase ⊢
  cases hpc : s.pc with
  | lookup => trivial
  | test found =>
      cases found with
      | none => trivial
      | some p =>
          simp only [hpc] at hphase ⊢
          refine ⟨hfirst p (by rw [hpc]; rfl) hphase.1, ?_⟩
          intro hused
          cases step_entry hs p with
          | kept hpid hstate => exact hpid.trans (hphase.2 (hstate.not.mp hused))
          | taken q k c ha hslot =>
              subst ha
              exact absurd hslot (hcalm p (by rw [hpc]; rfl)).1
          | gone w _ _ _ hstate => exact absurd hstate hused
  | copy p =>
      simp only [hpc] at hphase ⊢
      exact ⟨hfirst p (by rw [hpc]; rfl) hphase.1, hholds p (by rw [hpc]; rfl) hphase.2⟩
  | second p =>
      simp only [hpc] at hphase ⊢
      exact ⟨hfirst p (by rw [hpc]; rfl) hphase.1, hholds p (by rw [hpc]; rfl) hphase.2.1,
        hphase.2.2⟩
  | visit p curproc slots n =>
      simp only [hpc] at hphase ⊢
      obtain ⟨hh, hdata, hcur, hroom, hstored⟩ := hphase
      exact ⟨hholds p (by rw [hpc]; rfl) hh, hdata, hcur, hroom, hstored.other t⟩
  | last p =>
      simp only [hpc] at hphase ⊢
      exact ⟨hholds p (by rw [hpc]; rfl) hphase.1, hphase.2.1, hphase.2.2.other t⟩
  | returned ret =>
      simp only [hpc] at hphase ⊢
      intro hret
      obtain ⟨heq, hdata, hstored⟩ := hphase hret
      exact ⟨heq, hdata, hstored.other t⟩

theorem callInv_step {caller : Fin NPROC} {b : CallAct} (h : CallInv pid s) (hcalm : Calm pid s b)
    (hs : Call.step caller pid s b = some s') : CallInv pid s' := by
  cases b with
  | call => exact h.next hs
  | other a =>
      simp only [Call.step, Option.ite_none_left_eq_some, Option.map_eq_some_iff] at hs
      obtain ⟨-, t, ht, rfl⟩ := hs
      exact h.other hcalm ht

/-! ## Calls that nobody disturbs -/

/-- Only the call itself moves. -/
def Alone (_ : Call) (b : CallAct) : Prop := b = .call

theorem alone_step {caller : Fin NPROC} {s s' : Call} (h : s.next pid = some s') :
    Reachable (Call.step caller pid) Alone s s' := .tail (a := .call) .refl rfl h

/-- The turns of the loop, one step each. -/
theorem visits_alone (caller : Fin NPROC) (pid : Int32) (s : Call) (p : Fin NPROC)
    (curproc : Option (Fin NPROC)) (slots : List (Fin NPROC)) (n : ℕ)
    (hpc : s.pc = .visit p curproc slots n) :
    let r := slots.foldl (s.table.childrenTurn curproc) (s.data.pids, n)
    Reachable (Call.step caller pid) Alone s
      { s with data := { s.data with pids := r.1 }, pc := .visit p curproc [] r.2 } := by
  induction slots generalizing s n with
  | nil =>
      have hsame : { s with pc := .visit p curproc [] n } = s := by rw [← hpc]
      show Reachable _ _ s { s with pc := .visit p curproc [] n }
      rw [hsame]
      exact .refl
  | cons q slots ih =>
      let turn := s.table.childrenTurn curproc (s.data.pids, n) q
      have hnext : s.next pid = some { s with
          data := { s.data with pids := turn.1 }, pc := .visit p curproc slots turn.2 } := by
        simp only [Call.next, hpc, turn]
      exact (alone_step hnext).trans (ih _ turn.2 rfl)

/-- Without other calls in between the steps do what `sysGetProcData` does at once. -/
theorem call_alone (caller : Fin NPROC) (pid : Int32) (s : Call) (hpc : s.pc = .lookup) :
    ∃ s', Reachable (Call.step caller pid) Alone s s' ∧
      s'.pc = .returned (s.table.sysGetProcData true pid s.data).2 ∧
      s'.data = (s.table.sysGetProcData true pid s.data).1 := by
  have hlookup : s.next pid = some { s with pc := .test (s.table.getprocbypid pid) } := by
    simp only [Call.next, hpc]
  cases hfind : s.table.getprocbypid pid with
  | none =>
      rw [hfind] at hlookup
      refine ⟨{ s with pc := .returned (-1) }, (alone_step hlookup).trans (alone_step rfl), ?_⟩
      simp [Table.sysGetProcData, hfind]
  | some p =>
      rw [hfind] at hlookup
      by_cases hp : (s.table.proc p).state = .unused
      · have htest : Call.next pid { s with pc := .test (some p) } =
            some { s with pc := .returned (-1) } := by simp only [Call.next, hp, if_true]
        refine ⟨_, (alone_step hlookup).trans (alone_step htest), ?_⟩
        simp [Table.sysGetProcData, hfind, hp]
      · have htest : Call.next pid { s with pc := .test (some p) } =
            some { s with pc := .copy p } := by simp only [Call.next, if_neg hp]
        let copied : Call := { s with
          data := { s.data with
            pid := (s.table.proc p).pid.toUInt32
            name := strncpy s.data.name (s.table.proc p).name 16 }
          pc := .second p }
        have hsecond : copied.next pid =
            some { copied with pc := .visit p (some p) (List.finRange NPROC) 0 } := by
          simp only [copied, Call.next, hfind]
        have hloop := visits_alone caller pid
          { copied with pc := .visit p (some p) (List.finRange NPROC) 0 } p (some p) _ 0 rfl
        refine ⟨_, (alone_step hlookup).trans ((alone_step htest).trans ((alone_step rfl).trans
          ((alone_step hsecond).trans (hloop.trans ((alone_step rfl).trans (alone_step rfl)))))),
          ?_⟩
        have hcount := getchildrenpid_snd s.table hfind s.data.pids
        rw [sysGetProcData_found s.table hfind hp, ← hcount, Table.getchildrenpid, hfind]
        exact ⟨rfl, rfl⟩

/-! ## Interleavings -/

/-- Whatever other processes do between the steps, a call that does not fail tells about the
process that was asked for, if that process is not given back meanwhile. -/
theorem call_consistent {t : Table} (ht : Reachable step Free Table.boot t) (caller : Fin NPROC)
    (pid : Int32) (data : ProcData) {s : Call}
    (h : Reachable (Call.step caller pid) (Calm pid) (Call.start t data) s) :
    s.Consistent pid :=
  (h.invariant (callInv_start (parentsUsed_of_reachable ht) pid data)
    fun _ _ _ hinv hcalm hs => callInv_step hinv hcalm hs).consistent

/-- Two children of `initproc`. -/
def siblings : Table := ((Table.boot.fork 0 true true).1.fork 0 true true).1

theorem siblings_reachable : Reachable step Free Table.boot siblings :=
  .tail (a := .fork 0 true true) (.tail (a := .fork 0 true true) .refl trivial rfl) trivial rfl

/-- `initproc` is asked for by one child. It forks once more behind the first lookup, and when the
loop has counted the other child, that one exits and is given back. -/
def busyCall : List CallAct :=
  [.call, .other (.fork 0 true true)] ++ List.replicate 5 .call ++
    [.other (.exit 1), .other (.wait 0)] ++ List.replicate NPROC .call

theorem busyCall_meets :
    Meets (Call.step 2 1) (Calm 1) (Call.start siblings ⟨0, fun _ => 0, 0, fun _ => 0⟩)
      busyCall := by
  have hcalls : ∀ n u, Meets (Call.step 2 1) (Calm 1) u (List.replicate n .call) := by
    intro n u
    refine meets_of_mem (fun v b hb => ?_) u
    rw [List.eq_of_mem_replicate hb]
    trivial
  refine (meets_append _ _ _).mpr ⟨(meets_append _ _ _).mpr ⟨(meets_append _ _ _).mpr ⟨?_,
    fun u _ => hcalls 5 u⟩, fun u hu => ?_⟩, fun u _ => hcalls NPROC u⟩
  · refine .cons rfl trivial (.cons rfl ?_ trivial)
    intro p hp
    obtain rfl : 0 = p := Option.some.inj hp
    decide +kernel
  · -- the child is given back while the loop goes on
    have hfound : (run (Call.step 2 1) (Call.start siblings ⟨0, fun _ => 0, 0, fun _ => 0⟩)
        ([.call, .other (.fork 0 true true)] ++ List.replicate 5 .call ++ [.other (.exit 1)])).map
          (fun s => (s.pc.holding, s.table.deadChild 0)) = some (some 0, some 1) := by
      decide +kernel
    intro v hv
    refine ⟨trivial, fun w hw => ⟨⟨fun _ _ => by decide, fun p hp => ?_⟩, trivial⟩⟩
    rw [run_concat hu hv, Option.map_some, Option.some.injEq, Prod.mk.injEq] at hfound
    rw [hfound.1] at hp
    obtain rfl := Option.some.inj hp
    rw [hfound.2]
    decide

theorem call_consistent_siblings :
    ∃ s, run (Call.step 2 1) (Call.start siblings ⟨0, fun _ => 0, 0, fun _ => 0⟩) busyCall =
        some s ∧
      s.pc = .returned 1 ∧ s.data.chldNum = 3 ∧ s.Consistent 1 := by
  have hrun : (run (Call.step 2 1) (Call.start siblings ⟨0, fun _ => 0, 0, fun _ => 0⟩)
      busyCall).map (fun s => (s.data.chldNum, s.pc.result)) = some (3, some 1) := by
    decide +kernel
  obtain ⟨s, hs, hres⟩ := Option.map_eq_some_iff.mp hrun
  rw [Prod.mk.injEq] at hres
  exact ⟨s, hs, CallPc.returned_of_result hres.2, hres.1, call_consistent siblings_reachable 2 1 _
    (reachable_iff_run.mpr ⟨_, hs, busyCall_meets⟩)⟩

/-- The process that is asked for exits and is given back behind the copy. The call then counts
all entries without a parent, and returns 0. -/
theorem call_inconsistent :
    Reachable step Free Table.boot siblings ∧
      ∃ s, run (Call.step 2 2) (Call.start siblings ⟨0, fun _ => 0, 0, fun _ => 0⟩)
          (List.replicate 3 .call ++ [.other (.exit 1), .other (.wait 0)] ++
            List.replicate (NPROC + 3) .call) = some s ∧
        s.pc = .returned 0 ∧ s.data.chldNum = 63 ∧ ¬s.Consistent 2 := by
  have hrun : (run (Call.step 2 2) (Call.start siblings ⟨0, fun _ => 0, 0, fun _ => 0⟩)
      (List.replicate 3 .call ++ [.other (.exit 1), .other (.wait 0)] ++
        List.replicate (NPROC + 3) .call)).map (fun s => (s.data.chldNum, s.pc.result)) =
          some (63, some 0) := by decide +kernel
  obtain ⟨s, hs, hres⟩ := Option.map_eq_some_iff.mp hrun
  rw [Prod.mk.injEq] at hres
  have hpc := CallPc.returned_of_result hres.2
  refine ⟨siblings_reachable, s, hs, hpc, hres.1, ?_⟩
  intro h
  have hret := (h 0 hpc (by decide)).1
  exact absurd hret (by decide)

end OsSolutions.Ps
