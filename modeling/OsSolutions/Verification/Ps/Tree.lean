import OsSolutions.Model.PsMachine

/-! # The processes form a tree

A parent runs and is older than its children. No entry without a process has a parent, and no
two entries have the same pid, unless both were given back by `wait`. -/

namespace OsSolutions.Ps

open Transition

variable {t t' : Table} {p q : Fin NPROC}

namespace Table

/-! ## Writing to one entry -/

@[simp] theorem modify_self (f : Proc → Proc) : (t.modify p f).proc p = f (t.proc p) := by
  simp [modify]

@[simp] theorem modify_of_ne (h : q ≠ p) (f : Proc → Proc) : (t.modify p f).proc q = t.proc q := by
  simp [modify, h]

/-- The entry `p` takes the next pid. -/
def claim (t : Table) (p : Fin NPROC) (f : Proc → Proc) : Table :=
  { t.modify p fun x => { f x with pid := t.nextpid } with nextpid := t.nextpid + 1 }

/-- The entry that the next `fork` takes. -/
def freeSlot (t : Table) : Option (Fin NPROC) :=
  (List.finRange NPROC).find? fun p => (t.proc p).state = .unused

theorem unused_of_freeSlot (h : t.freeSlot = some p) : (t.proc p).state = .unused := by
  simpa using List.find?_some h

/-- A `fork` that has found an entry and memory. -/
theorem fork_of_freeSlot {np : Fin NPROC} (h : t.freeSlot = some np) (curproc : Fin NPROC) :
    ∃ name, (t.fork curproc true true).1 = t.claim np fun x =>
      { x with state := .runnable, parent := some curproc, name } := by
  refine ⟨safestrcpy (t.proc np).name ((t.modify np fun x =>
    { x with state := .embryo, pid := t.nextpid }).proc curproc).name 16, ?_⟩
  rw [freeSlot] at h
  simp [fork, allocproc, h, claim, modify]

/-- A failed `fork` leaves its pid in the unused entry that it had taken. -/
theorem fork_cases (t : Table) (curproc : Fin NPROC) (kalloc copyuvm : Bool) :
    (t.fork curproc kalloc copyuvm).1 = t ∨ ∃ np, t.freeSlot = some np ∧
      ((t.fork curproc kalloc copyuvm).1 = t.claim np id ∨
        ∃ name, (t.fork curproc kalloc copyuvm).1 = t.claim np fun x =>
          { x with state := .runnable, parent := some curproc, name }) := by
  unfold fork allocproc
  cases hfind : (List.finRange NPROC).find? fun p => (t.proc p).state = .unused with
  | none => exact .inl rfl
  | some np =>
      have hunused : (t.proc np).state = .unused := unused_of_freeSlot hfind
      have hgiven : ({ t.modify np fun x => { x with state := .embryo, pid := t.nextpid } with
          nextpid := t.nextpid + 1 } : Table).modify np (fun x => { x with state := .unused }) =
          t.claim np id := by
        simp [claim, modify, ← hunused]
      refine .inr ⟨np, hfind, ?_⟩
      cases kalloc with
      | false => exact .inl hgiven
      | true =>
          cases copyuvm with
          | false => exact .inl hgiven
          | true =>
              have hfork := fork_of_freeSlot hfind curproc
              simp only [fork, allocproc, hfind] at hfork
              exact .inr hfork

/-- The child that `wait` gives back. -/
def deadChild (t : Table) (w : Fin NPROC) : Option (Fin NPROC) :=
  (List.finRange NPROC).find? fun p => (t.proc p).parent = some w ∧ (t.proc p).state = .zombie

/-- What `wait` writes to the entry of the child. -/
def reaped (x : Proc) : Proc :=
  { x with
    pid := 0, parent := none, name := Function.update x.name 0 0, killed := false,
    state := .unused }

theorem wait_cases {w : Fin NPROC} {r : Table × ℤ} (h : t.wait w = some r) :
    r.1 = t ∨ ∃ q, t.deadChild w = some q ∧ r.1 = t.modify q reaped := by
  unfold Table.wait at h
  split at h
  · rename_i q hfind
    obtain rfl := Option.some.inj h
    exact .inr ⟨q, hfind, rfl⟩
  · split at h
    · obtain rfl := Option.some.inj h
      exact .inl rfl
    · cases h

theorem exit_cases (h : t.exit p = some t') :
    p ≠ initproc ∧ t' = (t.reparent p).modify p fun x => { x with state := .zombie } := by
  unfold Table.exit at h
  split at h
  · cases h
  · rename_i hne
    exact ⟨hne, (Option.some.inj h).symm⟩

theorem reparent_entry (t : Table) (q p : Fin NPROC) :
    ((t.reparent q).proc p).pid = (t.proc p).pid ∧
      ((t.reparent q).proc p).state = (t.proc p).state ∧
      ((t.proc p).parent = none → ((t.reparent q).proc p).parent = none) := by
  by_cases hp : (t.proc p).parent = some q <;> simp [reparent, hp]

end Table

/-! ## The invariant -/

structure Tree (t : Table) : Prop where
  init : (t.proc Table.initproc).pid = 1 ∧ (t.proc Table.initproc).state = .runnable
  pid_lt : ∀ p, (t.proc p).pid.toInt < t.nextpid.toInt
  pid_pos : ∀ p, (t.proc p).state ≠ .unused → 1 ≤ (t.proc p).pid.toInt
  distinct : ∀ p q, p ≠ q → (t.proc p).pid = (t.proc q).pid → (t.proc p).pid = 0
  used : ∀ p q, (t.proc p).parent = some q → (t.proc p).state ≠ .unused
  runs : ∀ p q, (t.proc p).parent = some q → (t.proc q).state = .runnable
  older : ∀ p q, (t.proc p).parent = some q → (t.proc q).pid.toInt < (t.proc p).pid.toInt

theorem tree_boot : Tree Table.boot := by
  have hother : ∀ p, p ≠ Table.initproc →
      (Table.boot.proc p).state = .unused ∧ (Table.boot.proc p).pid = 0 := by
    intro p hp
    simp [Table.boot, hp]
  have hparent : ∀ p, (Table.boot.proc p).parent = none := by
    intro p
    by_cases hp : p = Table.initproc <;> simp [Table.boot, hp]
  refine ⟨⟨rfl, rfl⟩, ?_, ?_, ?_, ?_, ?_, ?_⟩
  · intro p
    by_cases hp : p = Table.initproc
    · subst hp
      decide
    · rw [(hother p hp).2]
      decide
  · intro p hused
    by_cases hp : p = Table.initproc
    · subst hp
      decide
    · exact absurd (hother p hp).1 hused
  · intro p q hpq heq
    by_cases hp : p = Table.initproc
    · subst hp
      rw [(hother q (Ne.symm hpq)).2] at heq
      exact heq
    · exact (hother p hp).2
  · intro p q hq
    rw [hparent p] at hq
    cases hq
  · intro p q hq
    rw [hparent p] at hq
    cases hq
  · intro p q hq
    rw [hparent p] at hq
    cases hq

namespace Tree

theorem unused_parent (h : Tree t) (hp : (t.proc p).state = .unused) :
    (t.proc p).parent = none := by
  cases hq : (t.proc p).parent with
  | none => rfl
  | some q => exact absurd hp (h.used p q hq)

theorem not_parent (h : Tree t) (hp : (t.proc p).state ≠ .runnable) (q : Fin NPROC) :
    (t.proc q).parent ≠ some p := fun hq => hp (h.runs q p hq)

/-- A parent has a pid, and a child a larger one. -/
theorem child_pid (h : Tree t) (hq : (t.proc p).parent = some q) :
    1 ≤ (t.proc q).pid.toInt ∧ (t.proc q).pid.toInt < (t.proc p).pid.toInt := by
  refine ⟨h.pid_pos q ?_, h.older p q hq⟩
  rw [h.runs p q hq]
  decide

/-- One entry that nobody has as its parent is written. -/
theorem write (h : Tree t) {f : Proc → Proc} {n : Int32} (hne : p ≠ Table.initproc)
    (hchildless : ∀ q, (t.proc q).parent ≠ some p) (hn : t.nextpid.toInt ≤ n.toInt)
    (hpid : (f (t.proc p)).pid.toInt < n.toInt)
    (hpos : (f (t.proc p)).state ≠ .unused → 1 ≤ (f (t.proc p)).pid.toInt)
    (hdistinct : ∀ q, q ≠ p → (f (t.proc p)).pid = (t.proc q).pid → (f (t.proc p)).pid = 0)
    (hparent : ∀ q, (f (t.proc p)).parent = some q → q ≠ p ∧ (f (t.proc p)).state ≠ .unused ∧
      (t.proc q).state = .runnable ∧ (t.proc q).pid.toInt < (f (t.proc p)).pid.toInt) :
    Tree { t.modify p f with nextpid := n } := by
  have hself : (t.modify p f).proc p = f (t.proc p) := Table.modify_self f
  have hother : ∀ q, q ≠ p → (t.modify p f).proc q = t.proc q := fun q hq => Table.modify_of_ne hq f
  refine ⟨?_, ?_, ?_, ?_, ?_, ?_, ?_⟩
  · show ((t.modify p f).proc Table.initproc).pid = 1 ∧ _
    rw [hother _ (Ne.symm hne)]
    exact h.init
  · intro q
    show ((t.modify p f).proc q).pid.toInt < n.toInt
    by_cases hq : q = p
    · rw [hq, hself]
      exact hpid
    · rw [hother q hq]
      exact Int.lt_of_lt_of_le (h.pid_lt q) hn
  · intro q
    show ((t.modify p f).proc q).state ≠ .unused → 1 ≤ ((t.modify p f).proc q).pid.toInt
    by_cases hq : q = p
    · rw [hq, hself]
      exact hpos
    · rw [hother q hq]
      exact h.pid_pos q
  · intro q r hqr
    show ((t.modify p f).proc q).pid = ((t.modify p f).proc r).pid → ((t.modify p f).proc q).pid = 0
    by_cases hq : q = p
    · subst hq
      rw [hself, hother r (Ne.symm hqr)]
      exact hdistinct r (Ne.symm hqr)
    · rw [hother q hq]
      by_cases hr : r = p
      · subst hr
        rw [hself]
        exact fun heq => heq.trans (hdistinct q hq heq.symm)
      · rw [hother r hr]
        exact h.distinct q r hqr
  · intro q r
    show ((t.modify p f).proc q).parent = some r → ((t.modify p f).proc q).state ≠ .unused
    by_cases hq : q = p
    · rw [hq, hself]
      exact fun hr => (hparent r hr).2.1
    · rw [hother q hq]
      exact h.used q r
  · intro q r
    show ((t.modify p f).proc q).parent = some r → ((t.modify p f).proc r).state = .runnable
    by_cases hq : q = p
    · rw [hq, hself]
      intro hr
      rw [hother r (hparent r hr).1]
      exact (hparent r hr).2.2.1
    · rw [hother q hq]
      intro hr
      rw [hother r fun heq => hchildless q (heq ▸ hr)]
      exact h.runs q r hr
  · intro q r
    show ((t.modify p f).proc q).parent = some r →
      ((t.modify p f).proc r).pid.toInt < ((t.modify p f).proc q).pid.toInt
    by_cases hq : q = p
    · rw [hq, hself]
      intro hr
      rw [hother r (hparent r hr).1]
      exact (hparent r hr).2.2.2
    · rw [hother q hq]
      intro hr
      rw [hother r fun heq => hchildless q (heq ▸ hr)]
      exact h.older q r hr

/-- The tree depends on pids, states and parents only. -/
theorem congr (h : Tree t) (hproc : ∀ p, (t'.proc p).pid = (t.proc p).pid ∧
    (t'.proc p).state = (t.proc p).state ∧ (t'.proc p).parent = (t.proc p).parent)
    (hnext : t'.nextpid = t.nextpid) : Tree t' := by
  have hpid := fun p => (hproc p).1
  have hstate := fun p => (hproc p).2.1
  have hparent := fun p => (hproc p).2.2
  refine ⟨?_, ?_, ?_, ?_, ?_, ?_, ?_⟩
  · rw [hpid, hstate]
    exact h.init
  · intro p
    rw [hpid, hnext]
    exact h.pid_lt p
  · intro p
    rw [hpid, hstate]
    exact h.pid_pos p
  · intro p q
    rw [hpid, hpid]
    exact h.distinct p q
  · intro p q
    rw [hparent, hstate]
    exact h.used p q
  · intro p q
    rw [hparent, hstate]
    exact h.runs p q
  · intro p q
    rw [hparent, hpid, hpid]
    exact h.older p q

/-! ## The calls -/

theorem claim (h : Tree t) (hp : (t.proc p).state = .unused) (hwrap : t.nextpid.toInt + 1 < 2 ^ 31)
    {f : Proc → Proc} (hparent : ∀ q, (f (t.proc p)).parent = some q →
      q ≠ p ∧ (f (t.proc p)).state ≠ .unused ∧ (t.proc q).state = .runnable) :
    Tree (t.claim p f) := by
  have hpos : 1 < t.nextpid.toInt := by
    have hinit := h.pid_lt Table.initproc
    rw [h.init.1] at hinit
    exact hinit
  have hsucc : (t.nextpid + 1).toInt = t.nextpid.toInt + 1 := by
    rw [Int32.toInt_add, Int.bmod_eq_of_le] <;> simp <;> omega
  apply h.write
  · rintro rfl
    rw [h.init.2] at hp
    cases hp
  · exact h.not_parent (by rw [hp]; decide)
  · omega
  · show t.nextpid.toInt < (t.nextpid + 1).toInt
    omega
  · exact fun _ => Int.le_of_lt hpos
  · intro q _ heq
    have hlt := h.pid_lt q
    rw [show t.nextpid = (t.proc q).pid from heq] at hlt
    exact absurd hlt (Int.lt_irrefl _)
  · intro q hq
    obtain ⟨hne, hused, hrun⟩ := hparent q hq
    exact ⟨hne, hused, hrun, h.pid_lt q⟩

theorem fork (h : Tree t) {curproc : Fin NPROC} (hrun : (t.proc curproc).state = .runnable)
    (hwrap : t.nextpid.toInt + 1 < 2 ^ 31) (kalloc copyuvm : Bool) :
    Tree (t.fork curproc kalloc copyuvm).1 := by
  rcases t.fork_cases curproc kalloc copyuvm with heq | ⟨np, hfree, heq | ⟨name, heq⟩⟩
  · rw [heq]
    exact h
  · have hunused := Table.unused_of_freeSlot hfree
    rw [heq]
    apply h.claim hunused hwrap
    intro q hq
    rw [id_eq, h.unused_parent hunused] at hq
    cases hq
  · have hunused := Table.unused_of_freeSlot hfree
    rw [heq]
    apply h.claim hunused hwrap
    intro q hq
    obtain rfl : curproc = q := Option.some.inj hq
    refine ⟨?_, by simp, hrun⟩
    rintro rfl
    rw [hunused] at hrun
    cases hrun

/-- `initproc` is older than every other process, so it can adopt any of them. -/
theorem reparent (h : Tree t) {curproc : Fin NPROC} (hne : curproc ≠ Table.initproc) :
    Tree (t.reparent curproc) ∧ ∀ q, ((t.reparent curproc).proc q).parent ≠ some curproc := by
  have hsame : ∀ p, ((t.reparent curproc).proc p).pid = (t.proc p).pid ∧
      ((t.reparent curproc).proc p).state = (t.proc p).state :=
    fun p => ⟨(t.reparent_entry curproc p).1, (t.reparent_entry curproc p).2.1⟩
  have hparent : ∀ p q, ((t.reparent curproc).proc p).parent = some q →
      q ≠ curproc ∧ ((t.proc p).parent = some q ∨
        (t.proc p).parent = some curproc ∧ q = Table.initproc) := by
    intro p q hq
    by_cases hp : (t.proc p).parent = some curproc
    · simp only [Table.reparent, if_pos hp, Option.some.injEq] at hq
      subst hq
      exact ⟨Ne.symm hne, .inr ⟨hp, rfl⟩⟩
    · simp only [Table.reparent, if_neg hp] at hq
      refine ⟨?_, .inl hq⟩
      rintro rfl
      exact hp hq
  refine ⟨⟨?_, ?_, ?_, ?_, ?_, ?_, ?_⟩, fun q hq => (hparent q curproc hq).1 rfl⟩
  · rw [(hsame _).1, (hsame _).2]
    exact h.init
  · intro p
    rw [(hsame p).1]
    exact h.pid_lt p
  · intro p
    rw [(hsame p).1, (hsame p).2]
    exact h.pid_pos p
  · intro p q
    rw [(hsame p).1, (hsame q).1]
    exact h.distinct p q
  · intro p q hq
    rw [(hsame p).2]
    rcases (hparent p q hq).2 with hold | ⟨hold, _⟩
    · exact h.used p q hold
    · exact h.used p curproc hold
  · intro p q hq
    rw [(hsame q).2]
    rcases (hparent p q hq).2 with hold | ⟨_, rfl⟩
    · exact h.runs p q hold
    · exact h.init.2
  · intro p q hq
    rw [(hsame p).1, (hsame q).1]
    rcases (hparent p q hq).2 with hold | ⟨hold, rfl⟩
    · exact h.older p q hold
    · have hpid := h.child_pid hold
      rw [h.init.1]
      exact Int.lt_of_le_of_lt hpid.1 hpid.2

theorem exit (h : Tree t) (hrun : (t.proc p).state = .runnable) (hs : t.exit p = some t') :
    Tree t' := by
  obtain ⟨hne, rfl⟩ := Table.exit_cases hs
  obtain ⟨htree, hchildless⟩ := h.reparent hne
  have hused : ((t.reparent p).proc p).state = .runnable :=
    (t.reparent_entry p p).2.1.trans hrun
  refine htree.write (f := fun x => { x with state := .zombie }) (n := (t.reparent p).nextpid)
    hne hchildless (Int.le_refl _) (htree.pid_lt p) ?_ ?_ ?_
  · exact fun _ => htree.pid_pos p (by rw [hused]; decide)
  · exact fun q hq => htree.distinct p q (Ne.symm hq)
  · intro q hq
    refine ⟨?_, by simp, htree.runs p q hq, htree.older p q hq⟩
    rintro rfl
    exact hchildless q hq

theorem wait (h : Tree t) {r : Table × ℤ} (hs : t.wait p = some r) : Tree r.1 := by
  rcases Table.wait_cases hs with heq | ⟨q, hdead, heq⟩
  · rw [heq]
    exact h
  · have hzombie : (t.proc q).state = .zombie := by
      have hfound := List.find?_some hdead
      simp only [decide_eq_true_eq] at hfound
      exact hfound.2
    rw [heq]
    refine h.write (n := t.nextpid) (f := Table.reaped) ?_
      (h.not_parent (by rw [hzombie]; decide)) (Int.le_refl _) ?_ ?_ ?_ ?_
    · rintro rfl
      rw [h.init.2] at hzombie
      cases hzombie
    · have hinit := h.pid_lt Table.initproc
      rw [h.init.1] at hinit
      have hzero : (0 : Int32).toInt < (1 : Int32).toInt := by decide
      exact Int.lt_trans hzero hinit
    · exact fun hused => absurd rfl hused
    · exact fun _ _ _ => rfl
    · intro q hq
      cases hq

theorem exec (h : Tree t) (p : Fin NPROC) (last : CString) : Tree (t.exec p last) := by
  refine h.congr ?_ rfl
  intro q
  by_cases hq : q = p
  · subst hq
    simp [Table.exec]
  · simp [Table.exec, hq]

end Tree

theorem step_tree {a : Act} (h : Tree t) (hwrap : NoWrap t a) (hs : step t a = some t') :
    Tree t' := by
  cases a with
  | fork p kalloc copyuvm =>
      by_cases hp : (t.proc p).state = .runnable
      · simp only [step, if_pos hp, Option.some.injEq] at hs
        subst hs
        exact h.fork hp hwrap kalloc copyuvm
      · simp [step, hp] at hs
  | exit p =>
      by_cases hp : (t.proc p).state = .runnable
      · simp only [step, if_pos hp] at hs
        exact h.exit hp hs
      · simp [step, hp] at hs
  | wait p =>
      by_cases hp : (t.proc p).state = .runnable
      · simp only [step, if_pos hp, Option.map_eq_some_iff] at hs
        obtain ⟨r, hr, rfl⟩ := hs
        exact h.wait hr
      · simp [step, hp] at hs
  | exec p last =>
      by_cases hp : (t.proc p).state = .runnable
      · simp only [step, if_pos hp, Option.some.injEq] at hs
        subst hs
        exact h.exec p last
      · simp [step, hp] at hs

theorem tree_of_reachable (h : Reachable step NoWrap Table.boot t) : Tree t :=
  h.invariant tree_boot fun _ _ _ htree hwrap hs => step_tree htree hwrap hs

end OsSolutions.Ps
