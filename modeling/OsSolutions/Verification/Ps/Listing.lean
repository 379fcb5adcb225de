import OsSolutions.Pointers.Forest
import OsSolutions.Verification.Ps.Tree
import OsSolutions.Verification.Sem.Sections
import OsSolutions.Verification.String.Names

/-! # What `ps` prints

One call of `get_proc_data` finds the process and its children, and `ps` walks the tree from
there. -/

namespace OsSolutions.Ps

open Pointers Transition

variable {t : Table} {p q : Fin NPROC}

/-! ## Copying the name -/

theorem takeWhile_congr {α : Type*} {P : α → Bool} {f g : ℕ → α} (n : ℕ)
    (h : ∀ j < n, (∀ k < j, P (f k) = true) → g j = f j) :
    ((List.range n).map g).takeWhile P = ((List.range n).map f).takeWhile P := by
  induction n generalizing f g with
  | zero => rfl
  | succ n ih =>
      have hzero : g 0 = f 0 := h 0 (by omega) (by simp)
      rw [List.range_succ_eq_map, List.map_cons, List.map_cons, List.takeWhile_cons,
        List.takeWhile_cons, hzero, List.map_map, List.map_map]
      cases hP : P (f 0) with
      | false => rfl
      | true =>
          rw [if_pos rfl, if_pos rfl]
          congr 1
          apply ih
          intro j hj hbelow
          apply h (j + 1) (by omega)
          intro k hk
          cases k with
          | zero => exact hP
          | succ k => exact hbelow k (by omega)

theorem chars_strncpy (s t : Bytes) : chars (strncpy s t 16) = chars t := by
  apply takeWhile_congr
  intro j hj hnul
  exact strncpyLoop_apply s t 0 16 j (by omega) (by simpa using hnul) (by simp)

/-! ## Lookups -/

namespace Table

def children (t : Table) (p : Fin NPROC) : List (Fin NPROC) :=
  (List.finRange NPROC).filter fun q => (t.proc q).parent = some p

/-- `q` is `p` or descends from it. -/
def Descends (t : Table) (q p : Fin NPROC) : Prop := Below (fun x => (t.proc x).parent) q p

/-- No line of descent from `p` on has more than `n` processes. -/
def HeightLE (t : Table) (n : ℕ) (p : Fin NPROC) : Prop :=
  Pointers.HeightLE (fun x => (t.proc x).parent) n p

/-- The line for a process: its name, its pid, and the pids of its children. -/
def line (t : Table) (p : Fin NPROC) : Line where
  name := chars (t.proc p).name
  pid := (t.proc p).pid
  chldNum := Int32.ofNat (t.children p).length
  pids := (t.children p).map fun q => (t.proc q).pid

end Table

theorem Tree.forest (h : Tree t) :
    Forest (fun x => (t.proc x).parent) t.children fun x => (t.proc x).pid.toInt.toNat where
  mem := by simp [Table.children]
  nodup p := (List.nodup_finRange NPROC).filter _
  rank_lt := by
    intro a c hc
    have hpid := h.child_pid hc
    omega

/-- The pid of a process is found in its own entry, whatever the unused entries hold. -/
theorem Tree.getprocbypid (h : Tree t) (hp : (t.proc p).state ≠ .unused) :
    t.getprocbypid (t.proc p).pid = some p := by
  have hpos := h.pid_pos p hp
  rw [Table.getprocbypid, find?_finRange_eq_some]
  refine ⟨by simp, ?_⟩
  intro q hq
  rw [decide_eq_false_iff_not]
  intro heq
  have hzero := h.distinct p q (Ne.symm (Fin.ne_of_lt hq)) heq.symm
  rw [hzero] at hpos
  exact absurd hpos (by decide)

/-! ## The children -/

/-- The loop appends the pids of the children to the `k` entries that are there, and writes
nothing else. -/
theorem foldl_childrenTurn (t : Table) (curproc : Option (Fin NPROC)) (l : List (Fin NPROC))
    (mem : ℕ → UInt32) (k : ℕ) :
    (l.foldl (t.childrenTurn curproc) (mem, k)).2 =
        k + (l.filter fun q => (t.proc q).parent = curproc).length ∧
      (∀ i, i < k ∨ k + (l.filter fun q => (t.proc q).parent = curproc).length ≤ i →
        (l.foldl (t.childrenTurn curproc) (mem, k)).1 i = mem i) ∧
      ∀ i (hi : i < (l.filter fun q => (t.proc q).parent = curproc).length),
        (l.foldl (t.childrenTurn curproc) (mem, k)).1 (k + i) =
          (t.proc (l.filter fun q => (t.proc q).parent = curproc)[i]).pid.toUInt32 := by
  induction l generalizing mem k with
  | nil => exact ⟨rfl, fun _ _ => rfl, fun i hi => absurd hi (Nat.not_lt_zero i)⟩
  | cons q l ih =>
      by_cases hq : (t.proc q).parent = curproc
      · obtain ⟨hlen, hframe, hget⟩ :=
          ih (Function.update mem k (t.proc q).pid.toUInt32) (k + 1)
        have hturn : t.childrenTurn curproc (mem, k) q =
            (Function.update mem k (t.proc q).pid.toUInt32, k + 1) := if_pos hq
        simp only [List.foldl_cons, hturn, List.filter_cons, hq, decide_true, if_true,
          List.length_cons]
        refine ⟨by omega, ?_, ?_⟩
        · intro i hi
          rw [hframe i (by omega), Function.update_of_ne (by omega)]
        · intro i hi
          cases i with
          | zero => exact (hframe k (by omega)).trans (Function.update_self k _ mem)
          | succ i =>
              have hnext := hget i (by omega)
              rw [show k + (i + 1) = k + 1 + i by omega, hnext]
              rfl
      · have hturn : t.childrenTurn curproc (mem, k) q = (mem, k) := if_neg hq
        simp only [List.foldl_cons, hturn, List.filter_cons, hq, decide_false]
        exact ih mem k

theorem children_length (t : Table) (p : Fin NPROC) : (t.children p).length ≤ NPROC := by
  have hle : (t.children p).length ≤ (List.finRange NPROC).length := List.length_filter_le _ _
  rwa [List.length_finRange] at hle

/-- The number of children fits into `chld_num`. -/
theorem toNat_children_length (t : Table) (p : Fin NPROC) :
    (UInt32.ofNat (t.children p).length).toNat = (t.children p).length := by
  apply UInt32.toNat_ofNat_of_lt'
  exact Nat.lt_of_le_of_lt (children_length t p) (by decide)

theorem getchildrenpid_snd (t : Table) {pid : Int32} (hfind : t.getprocbypid pid = some p)
    (mem : ℕ → UInt32) : (t.getchildrenpid pid mem).2 = (t.children p).length := by
  rw [Table.getchildrenpid, hfind, (foldl_childrenTurn t (some p) _ mem 0).1, Nat.zero_add]
  rfl

/-- A call that finds a process in use. -/
theorem sysGetProcData_found (t : Table) {pid : Int32} (hfind : t.getprocbypid pid = some p)
    (hp : (t.proc p).state ≠ .unused) (data : ProcData) :
    t.sysGetProcData true pid data =
      (⟨(t.proc p).pid.toUInt32, strncpy data.name (t.proc p).name 16,
        UInt32.ofNat (t.children p).length, (t.getchildrenpid pid data.pids).1⟩,
          (t.proc p).pid) := by
  simp only [Table.sysGetProcData, hfind, if_true, if_neg hp,
    getchildrenpid_snd t hfind data.pids]

/-- The entries that a call stores are the pids of the children in order. -/
theorem getchildrenpid_fst (t : Table) {pid : Int32} (hfind : t.getprocbypid pid = some p)
    (mem : ℕ → UInt32) {i : ℕ} (hi : i < (t.children p).length) :
    (t.getchildrenpid pid mem).1 i = (t.proc (t.children p)[i]).pid.toUInt32 := by
  obtain ⟨-, -, hget⟩ := foldl_childrenTurn t (some p) (List.finRange NPROC) mem 0
  have hstored := hget i hi
  rw [Nat.zero_add] at hstored
  rw [Table.getchildrenpid, hfind]
  exact hstored

/-- Running through the positions of a list is running through the list. -/
theorem map_range_eq {α β : Type*} {l : List α} {f : ℕ → β} {g : α → β}
    (h : ∀ i (hi : i < l.length), f i = g l[i]) : (List.range l.length).map f = l.map g := by
  apply List.ext_getElem (by simp)
  intro i hi _
  have hlt : i < l.length := by simpa using hi
  simp [h i hlt]

theorem shown_pids (t : Table) {pid : Int32} (hfind : t.getprocbypid pid = some p)
    (mem : ℕ → UInt32) :
    (List.range (t.children p).length).map
        (fun i => ((t.getchildrenpid pid mem).1 i).toInt32) =
      (t.children p).map fun q => (t.proc q).pid := by
  apply map_range_eq
  intro i hi
  rw [getchildrenpid_fst t hfind mem hi, Int32.toInt32_toUInt32]

/-- The line for a process in use does not depend on what `p` held. -/
theorem printProcData_found (t : Table) {pid : Int32} (hfind : t.getprocbypid pid = some p)
    (hp : (t.proc p).state ≠ .unused) (data : ProcData) :
    printProcData (t.sysGetProcData true pid data).1 = t.line p := by
  rw [sysGetProcData_found t hfind hp]
  simp only [printProcData, Table.line, toNat_children_length, shown_pids t hfind, chars_strncpy,
    Int32.toInt32_toUInt32]
  rfl

/-! ## The walk -/

theorem mapM_eq_some {α β : Type*} {f : α → Option β} {g : α → β} (l : List α)
    (h : ∀ a ∈ l, f a = some (g a)) : l.mapM f = some (l.map g) := by
  induction l with
  | nil => rfl
  | cons a l ih =>
      rw [List.mapM_cons, h a (by simp), ih fun b hb => h b (by simp [hb])]
      rfl

theorem exists_of_mapM {α β : Type*} {f : α → Option β} {l : List α} {bs : List β}
    (h : l.mapM f = some bs) {a : α} (ha : a ∈ l) : ∃ b, f a = some b := by
  induction l generalizing bs with
  | nil => cases ha
  | cons c l ih =>
      rw [List.mapM_cons] at h
      obtain ⟨b, hb, h⟩ := Option.bind_eq_some_iff.mp h
      obtain ⟨bs', hbs', _⟩ := Option.bind_eq_some_iff.mp h
      rcases List.mem_cons.mp ha with rfl | hmem
      · exact ⟨b, hb⟩
      · exact ih hbs' hmem

/-- The calls of the loop are for the children. -/
theorem Tree.child_called (h : Tree t) (hp : (t.proc p).state ≠ .unused) (mem : ℕ → UInt32) {i : ℕ}
    (hi : i < (t.children p).length) :
    ((t.getchildrenpid (t.proc p).pid mem).1 i).toInt32 =
      (t.proc ((t.children p).getD i p)).pid := by
  rw [getchildrenpid_fst t (h.getprocbypid hp) _ hi, Int32.toInt32_toUInt32,
    List.getD_eq_getElem _ _ hi]

/-- One call that has room on the stack. -/
theorem Tree.printProcAndChildren_succ (h : Tree t) (stack : List ℕ → ProcData)
    (hp : (t.proc p).state ≠ .unused) (hfew : (t.children p).length ≤ MAX_CHILDREN) (n : ℕ)
    (path : List ℕ) :
    printProcAndChildren t stack (n + 1) path (t.proc p).pid =
      ((List.range (t.children p).length).mapM fun i =>
        printProcAndChildren t stack n (path ++ [i])
          ((t.getchildrenpid (t.proc p).pid (stack path).pids).1 i).toInt32).map
            fun lines => t.line p :: lines.flatten := by
  have hfind := h.getprocbypid hp
  have hcall := sysGetProcData_found t hfind hp (stack path)
  have hline := printProcData_found t hfind hp (stack path)
  have hroom : ¬((t.proc p).pid ≠ -1 ∧ MAX_CHILDREN < (t.children p).length) :=
    fun hover => Nat.not_lt.mpr hfew hover.2
  rw [hcall] at hline
  rw [OsSolutions.Ps.printProcAndChildren, hcall]
  simp only [toNat_children_length, if_neg hroom, hline]

/-- Where the stack is large enough `ps` prints a line for each process below `p`, in
preorder. -/
theorem Tree.printProcAndChildren (h : Tree t) (stack : List ℕ → ProcData)
    (hp : (t.proc p).state ≠ .unused)
    (hfew : ∀ q, t.Descends q p → (t.children q).length ≤ MAX_CHILDREN) {n : ℕ}
    (hn : t.HeightLE n p) (path : List ℕ) :
    OsSolutions.Ps.printProcAndChildren t stack n path (t.proc p).pid =
      some ((preorder t.children n p).map t.line) := by
  induction n generalizing p path with
  | zero => exact absurd hn Forest.not_heightLE_zero
  | succ n ih =>
      -- every call of the loop is for a child, from which the lines are shorter
      have hloop : ∀ i ∈ List.range (t.children p).length,
          OsSolutions.Ps.printProcAndChildren t stack n (path ++ [i])
              ((t.getchildrenpid (t.proc p).pid (stack path).pids).1 i).toInt32 =
            some ((preorder t.children n ((t.children p).getD i p)).map t.line) := by
        intro i hi
        have hlt := List.mem_range.mp hi
        have hmem : (t.children p)[i] ∈ t.children p := List.getElem_mem hlt
        have hparent := h.forest.mem.mp hmem
        rw [h.child_called hp _ hlt, List.getD_eq_getElem _ _ hlt]
        apply ih (h.used _ _ hparent)
        · intro q hq
          exact hfew q (hq.tail hparent)
        · exact Forest.heightLE_succ_iff.mp hn _ hparent
      have hlines : (List.range (t.children p).length).map (fun i =>
          (preorder t.children n ((t.children p).getD i p)).map t.line) =
            (t.children p).map fun c => (preorder t.children n c).map t.line := by
        apply map_range_eq
        intro i hi
        rw [List.getD_eq_getElem _ _ hi]
      rw [h.printProcAndChildren_succ stack hp (hfew p .refl), mapM_eq_some _ hloop, hlines,
        Option.map_some, preorder, List.map_cons, List.map_flatMap, List.flatMap_def]

/-- A walk that comes to its end has had room for every line of descent. -/
theorem Tree.heightLE_of_printed (h : Tree t) {stack : List ℕ → ProcData}
    (hp : (t.proc p).state ≠ .unused)
    (hfew : ∀ q, t.Descends q p → (t.children q).length ≤ MAX_CHILDREN) {n : ℕ} {path : List ℕ}
    {lines : List Line}
    (hlines : OsSolutions.Ps.printProcAndChildren t stack n path (t.proc p).pid = some lines) :
    t.HeightLE n p := by
  induction n generalizing p path lines with
  | zero => cases hlines
  | succ n ih =>
      rw [h.printProcAndChildren_succ stack hp (hfew p .refl)] at hlines
      obtain ⟨below, hbelow, _⟩ := Option.map_eq_some_iff.mp hlines
      apply Forest.heightLE_succ_iff.mpr
      intro c hc
      obtain ⟨i, hi, rfl⟩ := List.mem_iff_getElem.mp (h.forest.mem.mpr hc)
      obtain ⟨rest, hrest⟩ := exists_of_mapM hbelow (List.mem_range.mpr hi)
      rw [h.child_called hp _ hi, List.getD_eq_getElem _ _ hi] at hrest
      exact ih (h.used _ _ hc) (fun q hq => hfew q (hq.tail hc)) hrest

/-- `ps` prints one line for each process that is `p` or descends from it and no other line,
parents first, and each line shows the pids of all the children. -/
def PrintsTree (t : Table) (stack : List ℕ → ProcData) (u : UserStack) (p : Fin NPROC) : Prop :=
  ∃ order : List (Fin NPROC), order.Nodup ∧
    (∀ q, q ∈ order ↔ t.Descends q p) ∧ (∀ q ∈ order, (t.proc q).state ≠ .unused) ∧
    order.Pairwise (fun a b => (t.proc a).parent ≠ some b) ∧
    printProcAndChildren t stack u.frames [] (t.proc p).pid = some (order.map t.line)

/-- In every reachable table `ps` prints the tree of a process exactly when the page of its stack
has room for as many calls as the tree is high. -/
theorem ps_prints_tree_iff {t : Table} (h : Reachable step NoWrap Table.boot t)
    (stack : List ℕ → ProcData) (u : UserStack) (p : Fin NPROC)
    (hp : (t.proc p).state ≠ .unused)
    (hfew : ∀ q, t.Descends q p → (t.children q).length ≤ MAX_CHILDREN) :
    PrintsTree t stack u p ↔ t.HeightLE u.frames p := by
  have htree := tree_of_reachable h
  constructor
  · rintro ⟨order, -, -, -, -, hlines⟩
    exact htree.heightLE_of_printed hp hfew hlines
  · intro hn
    have hmem : ∀ q, q ∈ preorder t.children u.frames p ↔ t.Descends q p :=
      fun q => htree.forest.mem_preorder hn
    refine ⟨_, htree.forest.preorder_nodup hn, hmem, ?_, htree.forest.preorder_parents_first hn,
      htree.printProcAndChildren stack hp hfew hn []⟩
    intro q hq
    rcases Relation.ReflTransGen.cases_head ((hmem q).mp hq) with rfl | ⟨r, hr, _⟩
    · exact hp
    · exact htree.used q r hr

/-- `initproc` with two children, of which one has failed to fork and then exited. -/
def family : Table :=
  let t := ((((Table.boot.fork 0 true true).1.fork 0 true true).1).fork 1 true false).1
  (t.exit 1).getD t

theorem ps_prints_tree_family :
    PrintsTree family (fun _ => ⟨0, fun _ => 0, 0, fun _ => 0⟩) ⟨2, by decide⟩ 0 := by
  have hchildren : ∀ q, (family.children q).length ≤ MAX_CHILDREN := by decide +kernel
  have hparents : ∀ q p, (family.proc q).parent = some p → p = 0 := by
    have hall : ∀ q, (family.proc q).parent.all (· = 0) = true := by decide +kernel
    intro q p hparent
    have hp := hall q
    rw [hparent] at hp
    simpa using hp
  have hroot : (family.proc 0).parent = none := by decide +kernel
  have hreachable : Reachable step NoWrap Table.boot family := by
    refine .tail (a := .exit 1) (.tail (a := .fork 1 true false) (.tail (a := .fork 0 true true)
      (.tail (a := .fork 0 true true) .refl ?_ rfl) ?_ rfl) ?_ rfl) ?_ rfl
    all_goals decide +kernel
  have hheight : family.HeightLE 2 0 := by
    apply Forest.heightLE_succ_iff.mpr
    intro c hc
    apply Forest.heightLE_succ_iff.mpr
    intro d hd
    rw [hparents d c hd, hroot] at hc
    cases hc
  exact (ps_prints_tree_iff hreachable _ ⟨2, by decide⟩ 0 (by decide) fun q _ =>
    hchildren q).mpr hheight

/-! ## A tree that is too high -/

/-- Each process has forked once, from `initproc` on: the processes up to the `k`-th form a
line. -/
structure InLine (t : Table) (k : ℕ) : Prop where
  state : ∀ q : Fin NPROC, (t.proc q).state = if q.val ≤ k then .runnable else .unused
  parent : ∀ q p : Fin NPROC, (t.proc q).parent = some p ↔ q.val = p.val + 1 ∧ q.val ≤ k
  nextpid : t.nextpid.toInt = k + 2

theorem inLine_boot : InLine Table.boot 0 where
  state q := by
    by_cases hq : q = Table.initproc
    · subst hq
      rfl
    · have hne : ¬q.val ≤ 0 := fun hle => hq (Fin.ext (Nat.le_zero.mp hle))
      simp [Table.boot, hq, hne]
  parent q p := by
    by_cases hq : q = Table.initproc
    · subst hq
      simp [Table.boot, Table.initproc]
    · have hne : ¬q.val ≤ 0 := fun hle => hq (Fin.ext (Nat.le_zero.mp hle))
      simp [Table.boot, hq, hne]
  nextpid := rfl

theorem InLine.fork {k : ℕ} (h : InLine t k) (hp : p.val = k) (hroom : k + 1 < NPROC) :
    InLine (t.fork p true true).1 (k + 1) := by
  have hfree : t.freeSlot = some ⟨k + 1, hroom⟩ := by
    rw [Table.freeSlot, find?_finRange_eq_some]
    refine ⟨by simp [h.state], fun q hq => ?_⟩
    have hle : q.val ≤ k := Nat.le_of_lt_succ hq
    simp [h.state, hle]
  obtain ⟨name, hfork⟩ := Table.fork_of_freeSlot hfree p
  rw [hfork]
  refine ⟨fun q => ?_, fun q r => ?_, ?_⟩
  · by_cases hq : q = ⟨k + 1, hroom⟩
    · subst hq
      simp [Table.claim]
    · have hne : q.val ≠ k + 1 := fun heq => hq (Fin.ext heq)
      simp only [Table.claim, Table.modify_of_ne hq, h.state]
      congr 1
      rw [eq_iff_iff]
      omega
  · by_cases hq : q = ⟨k + 1, hroom⟩
    · subst hq
      simp only [Table.claim, Table.modify_self, Option.some.injEq, Fin.ext_iff, hp]
      omega
    · have hne : q.val ≠ k + 1 := fun heq => hq (Fin.ext heq)
      simp only [Table.claim, Table.modify_of_ne hq, h.parent]
      omega
  · have hnext := h.nextpid
    have hsmall : k + 1 < 64 := hroom
    have hsucc : (t.nextpid + 1).toInt = t.nextpid.toInt + 1 := by
      rw [Int32.toInt_add, Int.bmod_eq_of_le] <;> simp <;> omega
    rw [Table.claim, hsucc, hnext]
    omega

/-- Such a table is reached with as many forks. -/
theorem exists_inLine {k : ℕ} (hk : k < NPROC) :
    ∃ t, Reachable step NoWrap Table.boot t ∧ InLine t k := by
  induction k with
  | zero => exact ⟨_, .refl, inLine_boot⟩
  | succ k ih =>
      have hlast : k < NPROC := Nat.lt_of_succ_lt hk
      have hsmall : k + 1 < 64 := hk
      obtain ⟨t, hreach, ht⟩ := ih hlast
      refine ⟨_, .tail (a := .fork ⟨k, hlast⟩ true true) hreach ?_ ?_,
        ht.fork (p := ⟨k, hlast⟩) rfl hk⟩
      · rw [NoWrap, ht.nextpid]
        omega
      · simp [step, ht.state]

theorem InLine.children_length_le {k : ℕ} (h : InLine t k) (p : Fin NPROC) :
    (t.children p).length ≤ 1 := by
  have hsame : ∀ q ∈ t.children p, ∀ r ∈ t.children p, q = r := by
    simp only [Table.children, List.mem_filter, List.mem_finRange, true_and, decide_eq_true_eq,
      h.parent, Fin.ext_iff]
    omega
  have hnodup : (t.children p).Nodup := (List.nodup_finRange NPROC).filter _
  cases hc : t.children p with
  | nil => simp
  | cons a l =>
      cases l with
      | nil => simp
      | cons b l =>
          rw [hc] at hsame hnodup
          obtain rfl := hsame a (by simp) b (by simp)
          simp at hnodup

/-- All processes are in one line of descent. -/
theorem InLine.le_of_heightLE (h : InLine t (NPROC - 1)) {n : ℕ}
    (hn : t.HeightLE n Table.initproc) : NPROC ≤ n := by
  have hcons : List.finRange NPROC = Table.initproc :: (List.finRange NPROC).tail := rfl
  have hline : List.IsChain (fun x y => (t.proc y).parent = some x) (List.finRange NPROC) := by
    rw [List.isChain_iff_getElem]
    intro i hi
    have hlt : i + 1 < NPROC := by simpa using hi
    simp only [List.getElem_finRange, Fin.cast_mk, h.parent]
    exact ⟨trivial, Nat.le_pred_of_lt hlt⟩
  rw [hcons] at hline
  have hlen := hn _ hline
  rwa [← hcons, List.length_finRange] at hlen

/-- No stack has room for a call for each of `NPROC` processes. -/
theorem UserStack.frames_lt (u : UserStack) : u.frames < NPROC := by
  have hfits : u.frames * 64 < 4096 := u.fits
  have hlt : u.frames < 64 := by omega
  exact hlt

/-- `NPROC` processes of which each has forked the next one. -/
theorem line_not_printed : ∃ t : Table, Reachable step NoWrap Table.boot t ∧
    (t.proc Table.initproc).state ≠ .unused ∧
    (∀ q, t.Descends q Table.initproc → (t.children q).length ≤ MAX_CHILDREN) ∧
    ∀ stack u, ¬PrintsTree t stack u Table.initproc := by
  obtain ⟨t, hreach, ht⟩ := exists_inLine (k := NPROC - 1) (by decide)
  have hused : (t.proc Table.initproc).state ≠ .unused := by simp [ht.state, Table.initproc]
  have hfew : ∀ q, t.Descends q Table.initproc → (t.children q).length ≤ MAX_CHILDREN :=
    fun q _ => Nat.le_trans (ht.children_length_le q) (by decide)
  refine ⟨t, hreach, hused, hfew, ?_⟩
  rintro stack u ⟨order, -, -, -, -, hlines⟩
  have hle := ht.le_of_heightLE ((tree_of_reachable hreach).heightLE_of_printed hused hfew hlines)
  exact absurd u.frames_lt (Nat.not_lt.mpr hle)

end OsSolutions.Ps
