import OsSolutions.Transition.Tally
import OsSolutions.Verification.ProdCons.Steps

/-! # Where the parent and its children stand

The control point of the parent tells which children have been forked and how many have
been reaped. -/

namespace OsSolutions.ProdCons

open Transition

variable {main : Main}

/-- The control points of the parent, and those of a child. -/
def StandsAt : Proc main → Pc → Prop
  | none, .semOpen _ | none, .semClose _ | none, .exit _ | none, .exited => True
  | none, .fork i | none, .wait i => i ≤ main.children
  | none, .semUnlink sd | none, .unlinking sd _ | none, .unlinkLoop sd _ => sd ≠ waitcd
  | some _, .embryo k => k ≤ NOSEM
  | some _, .semClose sd | some _, .semUnlink sd => sd = waitcd
  | some _, .unlinking sd _ | some _, .unlinkLoop sd _ => sd = waitcd
  | some _, .loop | some _, .body _ | some _, .exit _ | some _, .exited => True
  | some _, .reaped => True
  | _, _ => False

def Pc.Born (c : Pc) : Prop := ∀ k, c ≠ .embryo k

/-- Control points of the parent after the fork loops. -/
def Pc.Later : Pc → Prop
  | .semOpen _ | .fork _ => False
  | _ => True

/-- Where child `i` can be while the parent is at the first control point. -/
def Made (c : Pc) (i : Fin main.children) (d : Pc) : Prop :=
  match c with
  | .semOpen _ => d = .embryo 0
  | .fork k =>
      (i.val < k → d.Born) ∧ (k < i.val → d = .embryo 0) ∧ (i.val = k → ∃ e, d = .embryo e)
  | _ => d.Born

/-- The number of children that the parent has waited for. -/
def waited (main : Main) : Pc → ℕ
  | .semOpen _ | .fork _ => 0
  | .semClose sd => if sd = waitcd then 0 else main.children
  | .wait i => i
  | _ => main.children

theorem waited_semClose {sd : Fin NOSEM} (h : sd ≠ waitcd) :
    waited main (.semClose sd) = main.children := if_neg h

structure Control (pc : Proc main → Pc) : Prop where
  stands : ∀ p, StandsAt p (pc p)
  made : ∀ i, Made (pc none) i (pc (some i))
  reaped : tally (fun i => if pc (some i) = .reaped then 1 else 0) = waited main (pc none)

variable {pc : Proc main → Pc} {p : Proc main} {i : Fin main.children} {c : Pc}

theorem made_of_later (h : c.Later) {d : Pc} : Made c i d ↔ d.Born := by
  cases c <;> first | exact Iff.rfl | exact absurd h id

theorem Made.born_congr {d d' : Pc} (h : Made c i d) (hd : d.Born) (hd' : d'.Born) :
    Made c i d' := by
  cases c with
  | semOpen sd => exact absurd h (hd 0)
  | fork k =>
      refine ⟨fun _ => hd', fun hlt => absurd (h.2.1 hlt) (hd 0), ?_⟩
      intro heq
      obtain ⟨e, he⟩ := h.2.2 heq
      exact absurd he (hd e)
  | _ => exact hd'

/-! ## Moves -/

theorem Control.parent (h : Control pc) (hat : StandsAt (none : Proc main) c)
    (hmade : ∀ i, Made (pc none) i (pc (some i)) → Made c i (pc (some i)))
    (hwait : waited main c = waited main (pc none)) : Control (Function.update pc none c) where
  stands := by
    intro q
    cases q with
    | none => simpa using hat
    | some j => simpa using h.stands (some j)
  made := by
    intro j
    simpa using hmade j (h.made j)
  reaped := by simpa [hwait] using h.reaped

theorem Control.child (h : Control pc) (hat : StandsAt (some i) c)
    (hmade : Made (pc none) i (pc (some i)) → Made (pc none) i c)
    (hold : pc (some i) ≠ .reaped) (hnew : c ≠ .reaped) :
    Control (Function.update pc (some i) c) where
  stands := by
    intro q
    by_cases hq : q = some i
    · subst hq
      simpa using hat
    · simpa [hq] using h.stands q
  made := by
    intro j
    by_cases hj : j = i
    · subst hj
      simpa using hmade (h.made j)
    · simpa [hj] using h.made j
  reaped := by
    have hsame : ∀ j, (Function.update pc (some i) c (some j) = .reaped) ↔
        pc (some j) = .reaped := by
      intro j
      by_cases hj : j = i
      · subst hj
        simp [hold, hnew]
      · simp [hj]
    have hrest := h.reaped
    simpa [hsame] using hrest

/-- A process that has been made, and is not being waited for, moves on. -/
theorem Control.move (h : Control pc) (hat : StandsAt p c) (hborn : (pc p).Born) (hborn' : c.Born)
    (hold : pc p ≠ .reaped) (hnew : c ≠ .reaped)
    (hparent : p = none → (pc p).Later ∧ c.Later ∧ waited main c = waited main (pc p)) :
    Control (Function.update pc p c) := by
  cases p with
  | none =>
      obtain ⟨hl, hl', hw⟩ := hparent rfl
      apply h.parent hat _ hw
      intro j hj
      rw [made_of_later hl']
      exact (made_of_later hl).mp hj
  | some i => exact h.child hat (fun hm => hm.born_congr hborn hborn') hold hnew

/-- All children have been reaped once the parent has left the loop of `wait`. -/
theorem Control.all_reaped (h : Control pc) (hw : waited main (pc none) = main.children)
    (i : Fin main.children) : pc (some i) = .reaped := by
  by_contra hi
  have hlt : tally (fun j => if pc (some j) = .reaped then 1 else 0) < main.children := by
    rw [tally]
    calc ∑ j, (if pc (some j) = .reaped then 1 else 0)
        < ∑ _j : Fin main.children, 1 := by
          apply Finset.sum_lt_sum
          · intro j _
            split <;> omega
          · exact ⟨i, Finset.mem_univ i, by simp [hi]⟩
      _ = main.children := by simp
  have := h.reaped
  omega

/-! ## Steps -/

variable {st st' : State main} {a : Act main}

theorem Control.afterUnlink (h : Control st.pc) {sd : Fin NOSEM} (hat : StandsAt p (.semUnlink sd))
    (hborn : (st.pc p).Born) (hold : st.pc p ≠ .reaped)
    (hparent : p = none → (st.pc p).Later ∧ waited main (st.pc p) = main.children) :
    Control (Function.update st.pc p (p.afterUnlink sd)) := by
  cases p with
  | none =>
      obtain ⟨hl, hw⟩ := hparent rfl
      by_cases hsd : sd.val + 1 < NOSEM
      · have hgo : Control (Function.update st.pc none (.semClose ⟨sd.val + 1, hsd⟩)) := by
          refine h.move trivial hborn (by simp [Pc.Born]) hold (by simp) fun _ => ⟨hl, trivial, ?_⟩
          rw [hw]
          exact waited_semClose (Fin.ne_of_val_ne (Nat.succ_ne_zero _))
        simpa [Proc.afterUnlink, hsd] using hgo
      · have hgo : Control (Function.update st.pc none (.exit 0)) :=
          h.move trivial hborn (by simp [Pc.Born]) hold (by simp) fun _ => ⟨hl, trivial, hw.symm⟩
        simpa [Proc.afterUnlink, hsd] using hgo
  | some i =>
      have hgo : Control (Function.update st.pc (some i) .loop) :=
        h.move trivial hborn (by simp [Pc.Born]) hold (by simp) (by simp)
      simpa [Proc.afterUnlink] using hgo

theorem Control.closes (h : Control st.pc) {sd : Fin NOSEM} {next : Pc}
    (hc : Closes st p sd next) : Control (Function.update st.pc p next) := by
  have hat := h.stands p
  rcases hc with ⟨hp, rfl⟩ | ⟨hp, rfl⟩
  · rw [hp] at hat
    cases p with
    | none =>
        by_cases hsd : sd = waitcd
        · subst hsd
          have hgo : Control (Function.update st.pc none (.wait 0)) :=
            h.move (Nat.zero_le _) (by simp [hp, Pc.Born]) (by simp [Pc.Born]) (by simp [hp])
              (by simp) (by simp [hp, Pc.Later, waited])
          simpa [Proc.afterClose] using hgo
        · have hgo : Control (Function.update st.pc none (.semUnlink sd)) :=
            h.move hsd (by simp [hp, Pc.Born]) (by simp [Pc.Born]) (by simp [hp])
              (by simp) (by simp [hp, Pc.Later, waited, hsd])
          simpa [Proc.afterClose, hsd] using hgo
    | some i =>
        have hgo : Control (Function.update st.pc (some i) (.semUnlink sd)) :=
          h.move hat (by simp [hp, Pc.Born]) (by simp [Pc.Born]) (by simp [hp]) (by simp)
            (by simp)
        simpa [Proc.afterClose] using hgo
  · rw [hp] at hat
    refine h.move ?_ (by simp [hp, Pc.Born]) (by simp [Pc.Born]) (by simp [hp]) (by simp)
      (by simp [hp, Pc.Later, waited])
    cases p <;> trivial

/-- A child moves on inside its loop. -/
theorem Control.round (h : Control st.pc) {c c' : Pc} (hp : st.pc p = c)
    (hc : c = .loop ∨ ∃ ph, c = .body ph)
    (hc' : c' = .loop ∨ c' = .exit 0 ∨ ∃ ph, c' = .body ph) :
    Control (Function.update st.pc p c') := by
  have hat := h.stands p
  rw [hp] at hat
  cases p with
  | none => rcases hc with rfl | ⟨ph, rfl⟩ <;> exact absurd hat id
  | some i =>
      apply h.move
      · rcases hc' with rfl | rfl | ⟨ph, rfl⟩ <;> trivial
      · rcases hc with rfl | ⟨ph, rfl⟩ <;> simp [hp, Pc.Born]
      · rcases hc' with rfl | rfl | ⟨ph, rfl⟩ <;> simp [Pc.Born]
      · rcases hc with rfl | ⟨ph, rfl⟩ <;> simp [hp]
      · rcases hc' with rfl | rfl | ⟨ph, rfl⟩ <;> simp
      · simp

theorem Control.takes (h : Control st.pc) {sd : Fin NOSEM} {next : Pc}
    (ht : Takes st p sd next) : Control (Function.update st.pc p next) := by
  rcases ht with ⟨hp, _, _, rfl⟩ | ⟨hp, _, rfl⟩ | ⟨hp, _, rfl⟩
  · exact h.round hp (.inl rfl) (.inr (.inr ⟨_, rfl⟩))
  · exact h.round hp (.inr ⟨_, rfl⟩) (.inr (.inr ⟨_, rfl⟩))
  · exact h.round hp (.inr ⟨_, rfl⟩) (.inr (.inr ⟨_, rfl⟩))

theorem Control.posts (h : Control st.pc) {sd : Fin NOSEM} {next : Pc} {j : ℕ}
    (ht : Posts st p sd next j) : Control (Function.update st.pc p next) := by
  rcases ht with ⟨hp, _, rfl, _⟩ | ⟨hp, _, rfl, _⟩
  · exact h.round hp (.inr ⟨_, rfl⟩) (.inr (.inr ⟨_, rfl⟩))
  · exact h.round hp (.inr ⟨_, rfl⟩) (.inl rfl)

/-- Where a process stands in `sem_unlink`, and what it leaves for. -/
theorem Control.unlinks (h : Control st.pc) {sd : Fin NOSEM}
    (hp : st.pc p = .semUnlink sd ∨ ∃ s, st.pc p = .unlinking sd s ∨ st.pc p = .unlinkLoop sd s) :
    (∀ s, Control (Function.update st.pc p (.unlinking sd s)) ∧
      Control (Function.update st.pc p (.unlinkLoop sd s))) ∧
    Control (Function.update st.pc p (p.afterUnlink sd)) := by
  have hat := h.stands p
  have hat' : StandsAt p (.semUnlink sd) := by
    cases p <;> rcases hp with hp | ⟨s, hp | hp⟩ <;> rw [hp] at hat <;> exact hat
  have hborn : (st.pc p).Born := by rcases hp with hp | ⟨s, hp | hp⟩ <;> simp [hp, Pc.Born]
  have hold : st.pc p ≠ .reaped := by rcases hp with hp | ⟨s, hp | hp⟩ <;> simp [hp]
  have hparent : p = none → (st.pc p).Later ∧ waited main (st.pc p) = main.children := by
    intro _
    rcases hp with hp | ⟨s, hp | hp⟩ <;> simp [hp, Pc.Later, waited]
  refine ⟨fun s => ⟨?_, ?_⟩, h.afterUnlink hat' hborn hold hparent⟩
  · refine h.move ?_ hborn (by simp [Pc.Born]) hold (by simp) fun hn => ?_
    · cases p <;> exact hat'
    · exact ⟨(hparent hn).1, trivial, (hparent hn).2.symm⟩
  · refine h.move ?_ hborn (by simp [Pc.Born]) hold (by simp) fun hn => ?_
    · cases p <;> exact hat'
    · exact ⟨(hparent hn).1, trivial, (hparent hn).2.symm⟩

theorem Control.passes (h : Control st.pc) {sd : Fin NOSEM} {s : Fin NSEM} {t : STable}
    (hp : Passes st p sd s t) :
    Control (Function.update st.pc p (.unlinkLoop sd s)) ∧
    Control (Function.update st.pc p (p.afterUnlink sd)) := by
  have hpc : st.pc p = .unlinking sd s ∨ st.pc p = .unlinkLoop sd s :=
    hp.imp (fun h => h.1) fun h => h.1
  have hall := h.unlinks (.inr ⟨s, hpc⟩)
  exact ⟨(hall.1 s).2, hall.2⟩

/-- The child in the hands of `fork` gets its next descriptor. -/
theorem Control.copies (h : Control st.pc) {k : Fin NOSEM} (hp : st.pc p = .fork i.val)
    (hi : st.pc (some i) = .embryo k.val) :
    Control (Function.update st.pc (some i) (.embryo (k.val + 1))) := by
  have hat := h.stands p
  rw [hp] at hat
  cases p with
  | some j => exact absurd hat id
  | none =>
      apply h.child
      · exact Nat.succ_le_of_lt k.isLt
      · intro hm
        rw [hp]
        exact ⟨by simp, by simp, fun _ => ⟨_, rfl⟩⟩
      · simp [hi]
      · simp

/-- The child in the hands of `fork` may run. -/
theorem Control.forks (h : Control st.pc) {k : ℕ} (hp : st.pc p = .fork i.val)
    (hi : st.pc (some i) = .embryo k) :
    Control (Function.update (Function.update st.pc (some i) (.semClose waitcd)) p
      (.fork (i.val + 1))) := by
  have hat := h.stands p
  rw [hp] at hat
  cases p with
  | some j => exact absurd hat id
  | none =>
      have hmade := h.made
      rw [hp] at hmade
      refine ⟨?_, ?_, ?_⟩
      · intro q
        cases q with
        | none => exact Nat.succ_le_of_lt i.isLt
        | some j =>
            by_cases hj : j = i
            · subst hj
              simp [StandsAt]
            · simpa [hj] using h.stands (some j)
      · intro j
        by_cases hj : j = i
        · subst hj
          simp [Made, Pc.Born]
        · have hne : j.val ≠ i.val := fun heq => hj (Fin.ext heq)
          obtain ⟨hlt, hgt, _⟩ := hmade j
          simp only [Made, Function.update_self, ne_eq, reduceCtorEq, not_false_eq_true,
            Function.update_of_ne, Option.some.injEq, hj]
          exact ⟨fun h' => hlt (by omega), fun h' => hgt (by omega), fun h' => ⟨0, hgt (by omega)⟩⟩
      · have hsame : ∀ j, (Function.update st.pc (some i) (.semClose waitcd) (some j) = .reaped) ↔
            st.pc (some j) = .reaped := by
          intro j
          by_cases hj : j = i
          · subst hj
            simp [hi]
          · simp [hj]
        have hcount := h.reaped
        simpa [hsame, hp, waited] using hcount

/-- The parent waits for one child more, which is gone. -/
theorem Control.reaps (h : Control st.pc) {n : ℕ} (hp : st.pc none = .wait n)
    (hn : n < main.children) (hi : st.pc (some i) = .exited) :
    Control (Function.update (Function.update st.pc (some i) .reaped) none (.wait (n + 1))) := by
  have hmade := h.made
  rw [hp] at hmade
  refine ⟨?_, ?_, ?_⟩
  · intro q
    cases q with
    | none => exact Nat.succ_le_of_lt hn
    | some j =>
        by_cases hj : j = i
        · subst hj
          simp [StandsAt]
        · simpa [hj] using h.stands (some j)
  · intro j
    by_cases hj : j = i
    · subst hj
      simp [Made, Pc.Born]
    · simpa [hj, Made] using hmade j
  · have hcount := h.reaped
    rw [hp] at hcount
    have hoff := tally_of_eq_off (f := fun j => if st.pc (some j) = .reaped then 1 else 0)
      (g := fun j => if Function.update st.pc (some i) Pc.reaped (some j) = .reaped
        then 1 else 0) i (by
          intro j hj
          simp [hj])
    simp [hi, waited] at hoff hcount ⊢
    omega

theorem Control.moved (h : Control st.pc) (hm : Move st p c) :
    Control (Function.update st.pc p c) := by
  have hat := h.stands p
  cases hm with
  | @forkedAll i hp hi =>
      rw [hp] at hat
      cases p with
      | some i => exact absurd hat id
      | none =>
          apply h.parent
          · trivial
          · intro j hj
            rw [hp] at hj
            exact hj.1 (Nat.lt_of_lt_of_le j.isLt (Nat.le_of_not_lt hi))
          · simp [hp, waited]
  | found hp => exact ((h.unlinks (.inl hp)).1 _).1
  | notFound hp => exact (h.unlinks (.inl hp)).2
  | produces hp => exact h.round hp (.inl rfl) (.inr (.inr ⟨_, rfl⟩))
  | produced hp => exact h.round hp (.inl rfl) (.inr (.inl rfl))
  | emptied hp => exact h.round hp (.inl rfl) (.inr (.inl rfl))
  | badWait ht => exact h.takes ht
  | @childless i hp hi hr =>
      rw [hp] at hat
      cases p with
      | some i => exact absurd hat id
      | none =>
          -- all children are reaped, so the parent would have left the loop
          have hcount := h.reaped
          simp [hr, hp, waited, tally] at hcount
          omega
  | @waited i hp hi =>
      rw [hp] at hat
      cases p with
      | some i => exact absurd hat id
      | none =>
          have heq : i = main.children := Nat.le_antisymm hat (Nat.le_of_not_lt hi)
          refine h.move trivial (by simp [hp, Pc.Born]) (by simp [Pc.Born]) (by simp [hp]) (by simp)
            fun _ => ⟨by simp [hp, Pc.Later], trivial, ?_⟩
          rw [hp, waited_semClose (by decide)]
          exact heq.symm
  | notOpen hc => exact h.closes hc

theorem step_control (h : Control st.pc) (hs : Step st a st') : Control st'.pc := by
  cases hs with
  | moved hm => exact h.moved hm
  | @opened p sd hp =>
      have hat := h.stands p
      rw [hp] at hat
      cases p with
      | some i => exact absurd hat id
      | none =>
          show Control (Function.update st.pc none (Proc.afterOpen sd))
          unfold Proc.afterOpen
          split
          · exact h.parent trivial (fun j hj => by rw [hp] at hj; exact hj) (by simp [hp, waited])
          · apply h.parent (Nat.zero_le _) _ (by simp [hp, waited])
            intro j hj
            rw [hp] at hj
            exact ⟨by simp, fun _ => hj, fun _ => ⟨0, hj⟩⟩
  | copied hp hi => exact h.copies hp hi
  | copiedNone hp hi => exact h.copies hp hi
  | forked hp hi => exact h.forks hp hi
  | closed hc => exact h.closes hc
  | unlinked hp => exact (h.passes hp).2
  | unlinkSleeps hp => exact (h.passes hp).1
  | took ht => exact h.takes ht
  | waitSleeps => exact h
  | messaged hp =>
      unfold State.message
      split <;> exact h.round hp (.inr ⟨_, rfl⟩) (.inr (.inr ⟨_, rfl⟩))
  | posted hp => exact h.posts hp
  | postRefused hp => exact h.posts hp
  | childrenLeft => exact h
  | @exited p k hp =>
      have hat := h.stands p
      rw [hp] at hat
      refine h.move ?_ (by simp [hp, Pc.Born]) (by simp [Pc.Born]) (by simp [hp]) (by simp)
        (by simp [hp, Pc.Later, waited])
      cases p <;> trivial
  | reaped hp hi hc => exact h.reaps hp hi hc

end OsSolutions.ProdCons
