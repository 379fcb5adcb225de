import OsSolutions.Verification.Readers.Lockstep
import Mathlib.Tactic.FinCases

/-! # Every schedule comes to an end

Until all three processes have exited one of them can move, and every step brings the end
nearer by one. -/

namespace OsSolutions.Readers

open OsSolutions.Polygon Transition

variable {st st' : State} {k : Width} {entries : List Entry}

def State.Finished (st : State) : Prop := st.main = .exited ∧ ∀ k, (st.reader k).pc = .exited

/-- What holds throughout the runs on an input. -/
structure Course (entries : List Entry) (st : State) : Prop where
  balance : Balance st
  lockstep : Lockstep entries st
  single : (st.reader .w64).pc ≠ .scanHigh

theorem single_step (h : (st.reader .w64).pc ≠ .scanHigh) (hs : ReaderStep st k st') :
    (st'.reader .w64).pc ≠ .scanHigh := by
  have hset : ∀ r : Reader, (k = .w64 → r.pc ≠ .scanHigh) →
      ((st.setReader k r).reader .w64).pc ≠ .scanHigh := by
    intro r hr
    by_cases hk : k = .w64
    · subst hk
      rw [State.setReader_self]
      exact hr rfl
    · rw [State.setReader_of_ne (Ne.symm hk)]
      exact h
  cases hs with
  | signal => exact hset _ fun _ => by simp
  | closed => exact hset _ fun _ => by simp
  | low hk => exact hset _ fun h64 => absurd (hk.symm.trans h64) (by decide)
  | high => exact hset _ fun _ => by simp [Reader.storeHigh]
  | word => exact hset _ fun _ => by simp [Reader.storeWord]
  | write => exact hset _ fun _ => by simp

theorem Course.step {a : Act} (h : Course entries st) (honly : OnlyLast (wordsOf entries))
    (hs : st.step a = some st') : Course entries st' := by
  refine ⟨step_balance h.balance hs, ?_, ?_⟩
  · cases a with
    | main => exact h.lockstep.main_step h.balance honly (main_cases hs)
    | reader k => exact h.lockstep.reader_step h.balance (reader_cases hs)
  · cases a with
    | main =>
        rw [(main_cases hs).pc_eq]
        exact h.single
    | reader k => exact single_step h.single (reader_cases hs)

theorem course_start {stdin : Text} (g : Garbage) (honly : OnlyLast (wordsOf entries))
    (hreads : ReadsEntries stdin entries) : Course entries (start stdin g) :=
  ⟨balance_start stdin g, lockstep_start g honly hreads, fun h => by cases h⟩

/-! ## Somebody moves -/

theorem reader_moves (hsingle : (st.reader .w64).pc ≠ .scanHigh)
    (hnot : (st.reader k).pc ≠ .exited)
    (hread : (st.reader k).pc = .read → (st.reader k).pipe ≠ [] ∨ (st.reader k).isOpen = false) :
    (st.step (.reader k)).isSome = true := by
  have hsignal : (st.reader k).pc = .read → (st.readSignal k).isSome = true := by
    intro hpc
    unfold State.readSignal
    cases hpipe : (st.reader k).pipe with
    | cons c pipe => rfl
    | nil =>
        rcases hread hpc with hne | hclosed
        · exact absurd hpipe hne
        · simp [hclosed]
  cases k with
  | w32 =>
      show st.reader32.isSome = true
      cases hpc : (st.reader .w32).pc with
      | read => simpa only [State.reader32, hpc] using hsignal hpc
      | exited => exact absurd hpc hnot
      | scan => simp [State.reader32, hpc]
      | scanHigh => simp [State.reader32, hpc]
      | write => simp [State.reader32, hpc]
  | w64 =>
      show st.reader64.isSome = true
      cases hpc : (st.reader .w64).pc with
      | read => simpa only [State.reader64, hpc] using hsignal hpc
      | exited => exact absurd hpc hnot
      | scanHigh => exact absurd hpc hsingle
      | scan => simp [State.reader64, hpc]
      | write => simp [State.reader64, hpc]

/-- A reader that has a word to send moves. -/
theorem moves_of_backlog (h : Balance st) (hsingle : (st.reader .w64).pc ≠ .scanHigh)
    (hopen : st.main.holds k = true) (hback : 1 ≤ (st.reader k).backlog) :
    (st.step (.reader k)).isSome = true := by
  apply reader_moves hsingle (h.not_exited hopen)
  intro hread
  rw [Reader.backlog, hread] at hback
  exact .inl (List.ne_nil_of_length_pos hback)

/-- The pipes are closed: the readers that are left move, and then `main` does. -/
theorem Course.moves_of_closed (h : Course entries st) (hclosed : ∀ k, st.main.holds k = false)
    (hmain : (∀ k, (st.reader k).pc = .exited) →
      st.main = .exited ∨ (st.step .main).isSome = true) :
    st.Finished ∨ ∃ a, (st.step a).isSome = true := by
  by_cases hall : ∀ k, (st.reader k).pc = .exited
  · exact (hmain hall).imp (fun hpc => ⟨hpc, hall⟩) fun hm => ⟨.main, hm⟩
  · obtain ⟨k, hk⟩ := not_forall.mp hall
    refine .inr ⟨.reader k, reader_moves h.single hk fun _ => .inr ?_⟩
    rw [h.balance.open_eq, hclosed]

theorem Course.moves (h : Course entries st) : st.Finished ∨ ∃ a, (st.step a).isSome = true := by
  cases hpc : st.main with
  | scan => exact .inr ⟨.main, by simp [State.step, State.runMain, hpc]⟩
  | request => exact .inr ⟨.main, by simp [State.step, State.runMain, hpc]⟩
  | stop => exact .inr ⟨.main, by simp [State.step, State.runMain, hpc]⟩
  | close32 => exact .inr ⟨.main, by simp [State.step, State.runMain, hpc]⟩
  | close64 => exact .inr ⟨.main, by simp [State.step, State.runMain, hpc]⟩
  | read =>
      obtain ⟨e, es, heq, hturn⟩ := h.lockstep.turn (by rw [hpc]; rfl)
      have hinv := hturn.inv
      rw [hpc] at hinv
      rcases hinv with ⟨hback, _⟩ | ⟨hboth, _⟩
      · exact .inr ⟨.reader e.width, moves_of_backlog h.balance h.single (by rw [hpc]; rfl) hback⟩
      · exact .inr ⟨.main, by simp [State.step, State.runMain, hpc, hboth]⟩
  | run =>
      obtain ⟨polygons, hrun, _⟩ := h.lockstep.after.runOnPolygon st.nextPolygon
      exact .inr ⟨.main, by simp [State.step, State.runMain, hpc, hrun]⟩
  | wait n =>
      apply h.moves_of_closed (fun k => by rw [hpc]; cases k <;> rfl)
      intro hall
      have hzombies : st.zombies = 2 := by simp [State.zombies, State.exited, hall]
      exact .inr (by simp [State.step, State.runMain, hpc, hzombies, n.isLt])
  | exited => exact h.moves_of_closed (fun k => by rw [hpc]; cases k <;> rfl) fun _ => .inl hpc

/-! ## The steps to go -/

/-- The steps of a reader for one word. -/
def served : Width → ℕ
  | .w32 => 4
  | .w64 => 3

/-- The steps that a reader still makes, for the requests it has and to exit. -/
def Reader.toGo (r : Reader) (k : Width) : ℕ :=
  served k * r.pipe.length +
    match r.pc with
    | .read => 1
    | .scan => served k
    | .scanHigh => 3
    | .write => 2
    | .exited => 0

/-- The steps of all processes for a list of words. -/
def stepsFor (es : List Entry) : ℕ := (es.map fun e => 4 + served e.width).sum

/-- The steps that `main` still makes, and those of the readers for requests to come, when
`todo` has not been run on. -/
def MainPc.toGo (todo : List Entry) : MainPc → ℕ
  | .scan => stepsFor todo + 11
  | .request => stepsFor todo + 10
  | .read => stepsFor todo.tail + 13
  | .run => stepsFor todo.tail + 12
  | .stop => 11
  | .close32 => 4
  | .close64 => 3
  | .wait reaped => 2 - reaped.val
  | .exited => 0

def State.toGo (entries : List Entry) (st : State) : ℕ :=
  st.main.toGo (entries.drop st.processed) +
    ((st.reader .w32).toGo .w32 + (st.reader .w64).toGo .w64)

theorem setReader_toGo (st : State) (k : Width) (r : Reader) :
    ((st.setReader k r).reader .w32).toGo .w32 + ((st.setReader k r).reader .w64).toGo .w64 +
        (st.reader k).toGo k =
      (st.reader .w32).toGo .w32 + (st.reader .w64).toGo .w64 + r.toGo k :=
  State.setReader_sum (fun k r => r.toGo k) st k r

theorem send_toGo (r : Reader) (k : Width) (bytes : Text) :
    Reader.toGo { r with pipe := r.pipe ++ bytes } k = r.toGo k + served k * bytes.length := by
  simp only [Reader.toGo, List.length_append, Nat.mul_add]
  omega

theorem close_toGo (st : State) (k : Width) :
    ((st.close k).reader .w32).toGo .w32 + ((st.close k).reader .w64).toGo .w64 =
      (st.reader .w32).toGo .w32 + (st.reader .w64).toGo .w64 := by
  have hset := setReader_toGo st k { st.reader k with isOpen := false }
  have hsame : Reader.toGo { st.reader k with isOpen := false } k = (st.reader k).toGo k := rfl
  rw [hsame] at hset
  exact Nat.add_right_cancel hset

theorem ReaderStep.toGo (hs : ReaderStep st k st') : st'.toGo entries + 1 = st.toGo entries := by
  obtain ⟨hmain, _, hproc⟩ := hs.frame
  obtain ⟨r, hreader, hless⟩ : ∃ r, st'.reader = (st.setReader k r).reader ∧
      r.toGo k + 1 = (st.reader k).toGo k := by
    cases hs with
    | signal hpc hpipe =>
        refine ⟨_, rfl, ?_⟩
        simp only [Reader.toGo, hpc, hpipe, List.length_cons, Nat.mul_add]
        omega
    | closed hpc hpipe => exact ⟨_, rfl, by simp [Reader.toGo, hpc, hpipe]⟩
    | low hk hpc =>
        subst hk
        exact ⟨_, rfl, by simp [Reader.toGo, Reader.storeLow, hpc, served]⟩
    | high hk hpc => exact ⟨_, rfl, by simp [Reader.toGo, Reader.storeHigh, hpc]⟩
    | word hk hpc =>
        subst hk
        exact ⟨_, rfl, by simp [Reader.toGo, Reader.storeWord, hpc, served]⟩
    | write hpc => exact ⟨_, rfl, by simp [Reader.toGo, hpc]⟩
  have hset := setReader_toGo st k r
  rw [State.toGo, State.toGo, hmain, hproc, hreader]
  omega

theorem MainStep.toGo (h : Course entries st) (honly : OnlyLast (wordsOf entries))
    (hs : MainStep st st') : st'.toGo entries + 1 = st.toGo entries := by
  have hturn := h.lockstep.turn
  cases hs with
  | scan hpc =>
      simp only [State.toGo, hpc, MainPc.toGo]
      omega
  | request hpc =>
      obtain ⟨e, es, heq, hturn⟩ := hturn (by rw [hpc]; rfl)
      have hinv := hturn.inv
      rw [hpc] at hinv
      have htarget : st.target = e.width := hinv.1
      have hset := setReader_toGo st e.width
        { st.reader e.width with pipe := (st.reader e.width).pipe ++ [49] }
      rw [send_toGo] at hset
      simp only [State.toGo, State.send, State.setReader_processed, htarget, hpc, heq, MainPc.toGo,
        stepsFor, List.map_cons, List.sum_cons, List.tail_cons, List.length_singleton] at hset ⊢
      omega
  | reply hpc hboth =>
      simp only [State.toGo, hpc, MainPc.toGo]
      omega
  | stale hpc hexited =>
      exact absurd (hexited .w32) (h.balance.not_exited (by rw [hpc]; rfl))
  | @ran polygons done hpc hrun =>
      obtain ⟨e, es, heq, _⟩ := hturn (by rw [hpc]; rfl)
      have hover := (h.lockstep.main_step h.balance honly (.ran hpc hrun)).ended
      have hdrop := drop_succ heq
      cases done with
      | true =>
          have hnil : es = [] := by
            rw [← hdrop]
            exact List.drop_of_length_le (hover rfl).ge
          simp only [State.toGo, hpc, heq, hnil, MainPc.toGo, stepsFor]
          simp
          omega
      | false =>
          simp only [State.toGo, hpc, heq, hdrop, MainPc.toGo, List.tail_cons]
          simp
          omega
  | stop hpc =>
      have hset := setReader_toGo st .w64
        { st.reader .w64 with pipe := (st.reader .w64).pipe ++ [48, 10] }
      rw [send_toGo] at hset
      simp only [State.toGo, State.send, hpc, MainPc.toGo, served, List.length_cons,
        List.length_nil] at hset ⊢
      omega
  | close32 hpc =>
      simp only [State.toGo, hpc, MainPc.toGo, close_toGo]
      omega
  | close64 hpc =>
      have htwo : 2 - (0 : Fin 2).val = 2 := rfl
      simp only [State.toGo, hpc, MainPc.toGo, close_toGo]
      omega
  | @wait n hpc hlt =>
      fin_cases n
      · simp [State.toGo, hpc, MainPc.toGo]
        omega
      · simp [State.toGo, hpc, MainPc.toGo]
        omega

theorem Course.toGo_step {a : Act} (h : Course entries st) (honly : OnlyLast (wordsOf entries))
    (hs : st.step a = some st') : st'.toGo entries + 1 = st.toGo entries := by
  cases a with
  | main => exact MainStep.toGo h honly (main_cases hs)
  | reader k => exact (reader_cases hs).toGo

theorem Course.run {acts : List Act} (h : Course entries st) (honly : OnlyLast (wordsOf entries))
    (hrun : run State.step st acts = some st') :
    Course entries st' ∧ acts.length + st'.toGo entries = st.toGo entries := by
  induction acts generalizing st with
  | nil =>
      obtain rfl : st = st' := by simpa using hrun
      exact ⟨h, Nat.zero_add _⟩
  | cons a acts ih =>
      obtain ⟨t, ht, hrest⟩ := Option.bind_eq_some_iff.mp hrun
      obtain ⟨hcourse, hlen⟩ := ih (h.step honly ht) hrest
      have hstep := h.toGo_step honly ht
      refine ⟨hcourse, ?_⟩
      rw [List.length_cons]
      omega

/-- From everywhere the processes can go on to the end. -/
theorem Course.finishes (h : Course entries st) (honly : OnlyLast (wordsOf entries)) :
    ∃ acts st', Transition.run State.step st acts = some st' ∧ st'.Finished := by
  induction hn : st.toGo entries generalizing st with
  | zero =>
      rcases h.moves with hfin | ⟨a, ha⟩
      · exact ⟨[], st, rfl, hfin⟩
      · obtain ⟨t, ht⟩ := Option.isSome_iff_exists.mp ha
        have hstep := h.toGo_step honly ht
        omega
  | succ n ih =>
      rcases h.moves with hfin | ⟨a, ha⟩
      · exact ⟨[], st, rfl, hfin⟩
      · obtain ⟨t, ht⟩ := Option.isSome_iff_exists.mp ha
        have hstep := h.toGo_step honly ht
        obtain ⟨acts, st', hrun, hfin⟩ := ih (h.step honly ht) (by omega)
        refine ⟨a :: acts, st', ?_, hfin⟩
        rw [run_cons, ht]
        exact hrun

end OsSolutions.Readers
