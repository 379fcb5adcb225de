import OsSolutions.Model.PsWalk
import OsSolutions.Transition.Simulation
import OsSolutions.Verification.Ps.Listing

/-! # Which lines come from uninitialised memory

A failed `get_proc_data` leaves the local `p` of the caller as it was, and `ps` prints it and
follows it. As long as no call fails, the walk is that of the table. -/

namespace OsSolutions.Ps

open Transition

variable {t : Table} {p : Fin NPROC} {pid : Int32}

/-! ## Calls that succeed -/

/-- The process in use that a call for `pid` describes. -/
def Table.described (t : Table) (pid : Int32) : Option (Fin NPROC) :=
  (t.getprocbypid pid).filter fun p => (t.proc p).state ≠ .unused

theorem described_eq_some :
    t.described pid = some p ↔ t.getprocbypid pid = some p ∧ (t.proc p).state ≠ .unused := by
  simp [Table.described, Option.filter_eq_some_iff]

/-- A call that fails writes nothing. -/
theorem sysGetProcData_missing (h : t.described pid = none) (data : ProcData) :
    t.sysGetProcData true pid data = (data, -1) := by
  cases hfind : t.getprocbypid pid with
  | none => simp only [Table.sysGetProcData, hfind, if_true]
  | some p =>
      have hp : (t.proc p).state = .unused := by
        by_contra hp
        rw [described_eq_some.mpr ⟨hfind, hp⟩] at h
        cases h
      simp only [Table.sysGetProcData, hfind, hp, if_true]

/-! ## The recursion -/

/-- If each call of a loop comes to an end, so does the loop. -/
theorem run_mapM {t : SmallTable} {stack : List ℕ → ProcData} {f : ℕ → Option (List Line)}
    {g : ℕ → List ℕ × Int32}
    (hf : ∀ i lines, f i = some lines → ∀ calls out, run (Walk.step t stack) ⟨g i :: calls, out⟩
      (List.replicate lines.length ()) = some ⟨calls, out ++ lines⟩)
    {l : List ℕ} {below : List (List Line)} (h : l.mapM f = some below)
    (calls : List (List ℕ × Int32)) (out : List Line) :
    run (Walk.step t stack) ⟨l.map g ++ calls, out⟩ (List.replicate below.flatten.length ()) =
      some ⟨calls, out ++ below.flatten⟩ := by
  induction l generalizing below out with
  | nil =>
      obtain rfl : [] = below := by simpa using h
      simp
  | cons i l ih =>
      rw [List.mapM_cons] at h
      obtain ⟨lines, hlines, h⟩ := Option.bind_eq_some_iff.mp h
      obtain ⟨rest, hrest, h⟩ := Option.bind_eq_some_iff.mp h
      obtain rfl : lines :: rest = below := Option.some.inj h
      rw [List.flatten_cons, List.length_append, List.replicate_add, run_append, List.map_cons,
        List.cons_append, hf i lines hlines, Option.bind_some, ih hrest, List.append_assoc]

/-- The steps of the machine print what the recursive function prints, a line for each step. -/
theorem run_of_printProcAndChildren {t : SmallTable} {stack : List ℕ → ProcData} {frames : ℕ}
    {path : List ℕ} {lines : List Line}
    (h : printProcAndChildren t.toTable stack frames path pid = some lines)
    (calls : List (List ℕ × Int32)) (out : List Line) :
    run (Walk.step t stack) ⟨(path, pid) :: calls, out⟩ (List.replicate lines.length ()) =
      some ⟨calls, out ++ lines⟩ := by
  induction frames generalizing path pid lines calls out with
  | zero => cases h
  | succ frames ih =>
      cases hcall : t.sysGetProcData true pid (stack path) with
      | mk p ret =>
          simp only [printProcAndChildren, hcall] at h
          split at h
          · cases h
          · obtain ⟨below, hbelow, rfl⟩ := Option.map_eq_some_iff.mp h
            have hloop := run_mapM (g := fun i => (path ++ [i], (p.pids i).toInt32))
              (fun i lines hi => ih hi) hbelow calls (out ++ [printProcData p])
            have hstep : Walk.step t stack ⟨(path, pid) :: calls, out⟩ () =
                some ⟨(List.range p.chldNum.toNat).map
                  (fun i => (path ++ [i], (p.pids i).toInt32)) ++ calls,
                  out ++ [printProcData p]⟩ := by simp [Walk.step, hcall]
            rw [List.length_cons, List.replicate_succ, run_cons, hstep, Option.bind_some, hloop,
              List.append_assoc]
            rfl

/-! ## The walk of the table -/

/-- The pids that are still to be called for, and the lines so far. -/
structure Visit where
  pids : List Int32
  out : List Line

namespace Visit

def start (pid : Int32) : Visit := ⟨[pid], []⟩

/-- One call, if it finds a process: its line is printed, and its children come next. -/
def step (t : Table) (v : Visit) (_ : Unit) : Option Visit :=
  match v.pids with
  | [] => none
  | pid :: pids =>
      (t.described pid).map fun p =>
        ⟨(t.children p).map (fun q => (t.proc q).pid) ++ pids, v.out ++ [t.line p]⟩

theorem step_cases {v v' : Visit} {a : Unit} (h : step t v a = some v') :
    ∃ pid pids p, v.pids = pid :: pids ∧ t.described pid = some p ∧
      v' = ⟨(t.children p).map (fun q => (t.proc q).pid) ++ pids, v.out ++ [t.line p]⟩ := by
  cases hpids : v.pids with
  | nil => simp [step, hpids] at h
  | cons pid pids =>
      simp only [step, hpids, Option.map_eq_some_iff] at h
      obtain ⟨p, hp, rfl⟩ := h
      exact ⟨pid, pids, p, rfl, hp, rfl⟩

/-- From `v` on the walk comes to pids of processes in use only. -/
def Clean (t : Table) (v : Visit) : Prop :=
  ∀ n v', run (step t) v (List.replicate n ()) = some v' →
    ∀ pid, v'.pids.head? = some pid → ∃ p, t.described pid = some p

theorem Clean.head {v : Visit} (h : Clean t v) (hpid : v.pids.head? = some pid) :
    ∃ p, t.described pid = some p := h 0 v rfl pid hpid

theorem Clean.step {v v' : Visit} (h : Clean t v) (hs : step t v () = some v') : Clean t v' := by
  intro n v'' hrun
  refine h (n + 1) v'' ?_
  rw [List.replicate_succ, run_cons, hs]
  exact hrun

end Visit

/-- The walk has the same calls before it and the same lines behind it. -/
structure Follows (v : Visit) (w : Walk) : Prop where
  calls : w.calls.map Prod.snd = v.pids
  out : w.out = v.out

theorem follows_start (pid : Int32) : Follows (Visit.start pid) (Walk.start pid) := ⟨rfl, rfl⟩

/-- A call that finds a process continues the walk as the table says, whatever `p` held. -/
theorem Follows.step {t : SmallTable} {v v' : Visit} {w : Walk} (h : Follows v w) (a : Unit)
    (hs : Visit.step t.toTable v a = some v') (stack : List ℕ → ProcData) :
    ∃ w', Walk.step t stack w a = some w' ∧ Follows v' w' := by
  obtain ⟨pid, pids, p, hpids, hp, rfl⟩ := Visit.step_cases hs
  obtain ⟨⟨path, _⟩, calls, hcalls, rfl, rfl⟩ := List.map_eq_cons_iff.mp (h.calls.trans hpids)
  obtain ⟨hfind, hused⟩ := described_eq_some.mp hp
  refine ⟨_, by rw [Walk.step, hcalls], ?_, ?_⟩
  · simp only [List.map_append, List.map_map, sysGetProcData_found _ hfind hused,
      toNat_children_length]
    rw [← shown_pids _ hfind (stack path).pids]
    rfl
  · rw [printProcData_found _ hfind hused, h.out]

/-! ## What the output depends on -/

/-- For any two contents of the stack, the same lines have been printed after the same number
of calls, and the walk is over after the same number of calls, if ever. -/
def SameOutput (t : SmallTable) (pid : Int32) : Prop :=
  ∀ stack stack' n,
    (run (Walk.step t stack) (Walk.start pid) (List.replicate n ())).map Walk.out =
      (run (Walk.step t stack') (Walk.start pid) (List.replicate n ())).map Walk.out

/-- A clean walk prints the lines of the table. -/
theorem out_of_clean {t : SmallTable} (h : Visit.Clean t.toTable (Visit.start pid))
    (stack : List ℕ → ProcData) (as : List Unit) :
    (run (Visit.step t.toTable) (Visit.start pid) as).map Visit.out =
      (run (Walk.step t stack) (Walk.start pid) as).map Walk.out := by
  apply run_map_eq (R := fun v w => Follows v w ∧ Visit.Clean t.toTable v) _ _ _
    ⟨follows_start pid, h⟩
  · rintro v w a v' ⟨hf, hc⟩ hs
    obtain ⟨w', hw, hf'⟩ := hf.step a hs stack
    exact ⟨w', hw, hf', hc.step hs⟩
  · rintro v w a ⟨hf, hc⟩ hs
    cases hpids : v.pids with
    | nil =>
        have hcalls : w.calls = [] := List.map_eq_nil_iff.mp (hf.calls.trans hpids)
        rw [Walk.step, hcalls]
    | cons pid pids =>
        have hhead : v.pids.head? = some pid := by rw [hpids, List.head?_cons]
        obtain ⟨p, hp⟩ := hc.head hhead
        simp [Visit.step, hpids, hp] at hs
  · exact fun v w hr => hr.1.out.symm

/-- What the stack holds, if every call finds the number `k` in its `pid`, and no children. -/
def garbage (k : UInt32) : List ℕ → ProcData := fun _ => ⟨k, fun _ => 0, 0, fun _ => 0⟩

/-- The first call that fails prints what the stack held. -/
theorem not_sameOutput {t : SmallTable} {n : ℕ} {v : Visit}
    (hrun : run (Visit.step t.toTable) (Visit.start pid) (List.replicate n ()) = some v)
    {pid' : Int32} (hpid : v.pids.head? = some pid') (hmissing : t.described pid' = none) :
    ¬SameOutput t pid := by
  have hout : ∀ k, (run (Walk.step t (garbage k)) (Walk.start pid)
      (List.replicate (n + 1) ())).map Walk.out = some (v.out ++ [⟨[], k.toInt32, 0, []⟩]) := by
    intro k
    obtain ⟨w, hw, hf⟩ := run_simulation (R := Follows)
      (fun v w a v' hf hs => hf.step a hs (garbage k)) (follows_start pid) hrun
    obtain ⟨rest, hpids⟩ : ∃ rest, v.pids = pid' :: rest := by
      cases hv : v.pids with
      | nil => simp [hv] at hpid
      | cons a rest => exact ⟨rest, by simpa [hv] using hpid⟩
    obtain ⟨⟨path, _⟩, calls, hcalls, rfl, -⟩ := List.map_eq_cons_iff.mp (hf.calls.trans hpids)
    have hstep : Walk.step t (garbage k) w () =
        some ⟨calls, w.out ++ [⟨[], k.toInt32, 0, []⟩]⟩ := by
      simp [Walk.step, hcalls, sysGetProcData_missing hmissing, garbage, printProcData, chars]
    rw [List.replicate_succ', run_concat hw hstep, Option.map_some, hf.out]
  intro hsame
  have heq := hsame (garbage 0) (garbage 1) (n + 1)
  rw [hout, hout] at heq
  simp at heq

/-- The output depends on the table alone exactly when no call of the walk fails, which the
table alone decides. -/
theorem sameOutput_iff (t : SmallTable) (pid : Int32) :
    SameOutput t pid ↔ Visit.Clean t.toTable (Visit.start pid) := by
  constructor
  · intro h n v hrun pid' hpid
    cases hp : t.described pid' with
    | some p => exact ⟨p, rfl⟩
    | none => exact absurd h (not_sameOutput hrun hpid hp)
  · intro h stack stack' n
    rw [← out_of_clean h stack, out_of_clean h stack']

/-- In a table that processes have come to by their calls, the walk is clean if its first call
finds a process. -/
theorem Tree.clean_iff (h : Tree t) :
    Visit.Clean t (Visit.start pid) ↔ ∃ p, t.described pid = some p := by
  have hfound : ∀ q, (t.proc q).state ≠ .unused → t.described (t.proc q).pid = some q :=
    fun q hq => described_eq_some.mpr ⟨h.getprocbypid hq, hq⟩
  constructor
  · exact fun hc => hc.head rfl
  · intro hpid n v hrun a ha
    -- only children, which are in use, become due
    have hall : ∀ a ∈ v.pids, ∃ p, t.described a = some p := by
      apply (reachable_of_run hrun).invariant
        (P := fun v => ∀ a ∈ v.pids, ∃ p, t.described a = some p)
      · simpa [Visit.start] using hpid
      · intro v _ v' hv _ hs a ha
        obtain ⟨pid', pids, p, hpids, -, rfl⟩ := Visit.step_cases hs
        rcases List.mem_append.mp ha with hchild | hrest
        · obtain ⟨q, hq, rfl⟩ := List.mem_map.mp hchild
          exact ⟨q, hfound q (h.used q p (h.forest.mem.mp hq))⟩
        · exact hv a (by simp [hpids, hrest])
    exact hall a (List.mem_of_mem_head? ha)

/-- Nobody has the pid 5 after boot. -/
theorem missing_pid_prints_garbage :
    ∃ t : SmallTable, t.toTable = Table.boot ∧ ¬SameOutput t 5 := by
  refine ⟨⟨Table.boot, by decide +kernel⟩, rfl, ?_⟩
  exact not_sameOutput (n := 0) rfl rfl (by decide +kernel)

end OsSolutions.Ps
