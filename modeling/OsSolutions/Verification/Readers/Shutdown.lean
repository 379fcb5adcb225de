import OsSolutions.Verification.Readers.Output

/-! # What the readers do after the last word

The bytes `0` and newline that `main` writes behind its loop are requests like all others. So
`reader64` scans the input twice more, and nobody reads the two words that it sends. -/

namespace OsSolutions.Readers

open OsSolutions.Polygon Transition

variable {st st' : State} {k : Width} {entries : List Entry}

/-- Every word that a reader has sent was run on, no reader has scanned after the last one,
and the reply pipe is empty. -/
def OneWordEach (st : State) : Prop := st.sent = st.processed ∧ st.late = 0 ∧ st.fdBoth = []

/-- The words that `reader64` is still going to scan. -/
def Reader.unscanned (r : Reader) : ℕ := r.pipe.length + if r.pc = .scan then 1 else 0

theorem unscanned_le (r : Reader) : r.unscanned ≤ r.backlog := by
  unfold Reader.unscanned Reader.backlog
  split
  · rename_i hpc
    rw [hpc]
    exact Nat.le_refl _
  · omega

/-- Behind the loop, the scans that were made and those still to be made add up to the bytes
that `main` has sent there, all of them to `reader64`. -/
structure Late (st : State) : Prop where
  early : st.main.left = false → st.late = 0
  quiet : st.main.left = true → (st.reader .w32).backlog = 0
  scans : st.main.left = true → st.late + (st.reader .w64).unscanned = st.main.asked

/-- `main` is in its loop before and after the step. -/
theorem Late.inside (h : Late st) (hleft : st.main.left = false) (hleft' : st'.main.left = false)
    (hlate : st'.late = st.late) : Late st' := by
  refine ⟨fun _ => hlate.trans (h.early hleft), ?_, ?_⟩
  · intro hl
    rw [hleft'] at hl
    cases hl
  · intro hl
    rw [hleft'] at hl
    cases hl

/-- `main` is behind its loop before and after the step, and what it sends is still to be
scanned for. -/
theorem Late.behind (h : Late st) (hleft : st.main.left = true) (hleft' : st'.main.left = true)
    (h32 : (st'.reader .w32).backlog = (st.reader .w32).backlog)
    (h64 : st'.late + (st'.reader .w64).unscanned + st.main.asked =
      st.late + (st.reader .w64).unscanned + st'.main.asked) : Late st' := by
  have hscans := h.scans hleft
  refine ⟨?_, fun _ => h32.trans (h.quiet hleft), fun _ => by omega⟩
  intro hl
  rw [hleft'] at hl
  cases hl

theorem late_start (stdin : Text) (g : Garbage) : Late (start stdin g) :=
  ⟨fun _ => rfl, fun h => (by cases h), fun h => (by cases h)⟩

theorem Late.main_step (h : Late st) (hb : Balance st) (hs : MainStep st st') : Late st' := by
  cases hs with
  | scan hpc => exact h.inside (by rw [hpc]; rfl) rfl rfl
  | request hpc => exact h.inside (by rw [hpc]; rfl) rfl rfl
  | reply hpc => exact h.inside (by rw [hpc]; rfl) rfl rfl
  | stale hpc => exact h.inside (by rw [hpc]; rfl) rfl rfl
  | @ran polygons done hpc =>
      -- `main` has the only word that was asked for, so the readers have nothing to do
      have hback : st.backlog = 0 := by
        have hflight := hb.in_flight
        rw [hpc] at hflight
        simp only [MainPc.holding, MainPc.asked] at hflight
        omega
      have h32 := backlog_le st .w32
      have h64 := (unscanned_le _).trans (backlog_le st .w64)
      cases done with
      | false => exact h.inside (by rw [hpc]; rfl) rfl rfl
      | true =>
          have hearly := h.early (by rw [hpc]; rfl)
          refine ⟨fun hl => (by cases hl), fun _ => ?_, fun _ => ?_⟩
          · show (st.reader .w32).backlog = 0
            omega
          · show st.late + (st.reader .w64).unscanned = 0
            omega
  | stop hpc =>
      have hsent : ((st.send .w64 [48, 10]).reader .w64).unscanned =
          (st.reader .w64).unscanned + 2 := by
        simp only [State.send, State.setReader_self, Reader.unscanned, List.length_append,
          List.length_cons, List.length_nil]
        omega
      apply h.behind (by rw [hpc]; rfl) rfl
      · show ((st.send .w64 [48, 10]).reader .w32).backlog = _
        rw [State.send, State.setReader_of_ne (by decide)]
      · show st.late + ((st.send .w64 [48, 10]).reader .w64).unscanned + st.main.asked = _ + 2
        rw [hsent, hpc]
        rfl
  | close32 hpc =>
      apply h.behind (by rw [hpc]; rfl) rfl
      · show ((st.close .w32).reader .w32).backlog = _
        rw [State.close, State.setReader_self]
        rfl
      · show st.late + ((st.close .w32).reader .w64).unscanned + st.main.asked = _
        rw [State.close, State.setReader_of_ne (by decide), hpc]
        rfl
  | close64 hpc =>
      apply h.behind (by rw [hpc]; rfl) rfl
      · show ((st.close .w64).reader .w32).backlog = _
        rw [State.close, State.setReader_of_ne (by decide)]
      · show st.late + ((st.close .w64).reader .w64).unscanned + st.main.asked = _
        rw [State.close, State.setReader_self, hpc]
        rfl
  | @wait n hpc =>
      split
      · exact h.behind (by rw [hpc]; rfl) rfl rfl (by rw [hpc]; rfl)
      · exact h.behind (by rw [hpc]; rfl) rfl rfl (by rw [hpc]; rfl)

/-- A step of `reader64` behind the loop: a scan is made, or stays to be made. -/
theorem Late.reader_step (h : Late st) (hs : ReaderStep st k st') : Late st' := by
  have hmain := hs.frame.1
  by_cases hleft : st.main.left = true
  · have hquiet := h.quiet hleft
    cases k with
    | w32 =>
        -- `reader32` has nothing to do but to exit
        have hpipe : (st.reader .w32).pipe = [] := by
          rw [Reader.backlog] at hquiet
          exact List.length_eq_zero_iff.mp (by omega)
        have hbusy : (st.reader .w32).pc.busy = 0 := by
          rw [Reader.backlog] at hquiet
          omega
        cases hs with
        | closed hpc =>
            apply h.behind hleft (hmain ▸ hleft)
            · simp [Reader.backlog, hpipe, hpc, ReaderPc.busy]
            · rw [State.setReader_of_ne (by decide)]
              rfl
        | signal hpc hne => rw [hpipe] at hne; cases hne
        | low _ hpc => rw [hpc] at hbusy; cases hbusy
        | high _ hpc => rw [hpc] at hbusy; cases hbusy
        | word _ hpc => rw [hpc] at hbusy; cases hbusy
        | write hpc => rw [hpc] at hbusy; cases hbusy
    | w64 =>
        obtain ⟨r, hreader, hcount⟩ : ∃ r, st'.reader = (st.setReader .w64 r).reader ∧
            st'.late + r.unscanned = st.late + (st.reader .w64).unscanned := by
          cases hs with
          | signal hpc hpipe =>
              exact ⟨_, rfl, by simp [Reader.unscanned, hpc, hpipe, State.setReader]⟩
          | closed hpc hpipe => exact ⟨_, rfl, by simp [Reader.unscanned, hpc, State.setReader]⟩
          | low hk => cases hk
          | high hk => cases hk
          | word _ hpc =>
              refine ⟨_, rfl, ?_⟩
              simp [Reader.unscanned, Reader.storeWord, hpc, State.scanf, hleft]
              omega
          | write hpc => exact ⟨_, rfl, by simp [Reader.unscanned, hpc, State.writeReply]; rfl⟩
        apply h.behind hleft (hmain ▸ hleft)
        · rw [hreader, State.setReader_of_ne (by decide)]
        · rw [hreader, State.setReader_self, hmain, hcount]
  · rw [Bool.not_eq_true] at hleft
    apply h.inside hleft (hmain ▸ hleft)
    cases hs with
    | low => simp [State.scanf, hleft]
    | high => simp [State.scanf, hleft]
    | word => simp [State.scanf, hleft]
    | _ => rfl

theorem step_late {a : Act} (h : Late st) (hb : Balance st) (hs : st.step a = some st') :
    Late st' := by
  cases a with
  | main => exact h.main_step hb (main_cases hs)
  | reader k => exact h.reader_step (reader_cases hs)

/-! ## When all have exited -/

theorem late_of_run {stdin : Text} {g : Garbage} {acts : List Act}
    (hrun : run State.step (start stdin g) acts = some st) : Balance st ∧ Late st := by
  apply (reachable_of_run hrun).invariant ⟨balance_start stdin g, late_start stdin g⟩
  intro s a s' h _ hs
  exact ⟨step_balance h.1 hs, step_late h.2 h.1 hs⟩

/-- Two words more than `main` has run on were sent, both were scanned for behind its loop, and
both are still in the reply pipe. -/
theorem State.Finished.counts (h : st.Finished) (hb : Balance st) (hl : Late st) :
    st.sent = st.processed + 2 ∧ st.late = 2 ∧ st.fdBoth.length = 2 := by
  obtain ⟨hmain, hreaders⟩ := h
  have hidle : ∀ k, (st.reader k).backlog = 0 := by
    intro k
    rw [Reader.backlog, (hb.exited k (hreaders k)).1, hreaders k]
    rfl
  have hback : st.backlog = 0 := by rw [State.backlog, hidle, hidle]
  have hscanned := unscanned_le (st.reader .w64)
  have hreq := hb.requests
  have hflight := hb.in_flight
  have hscans := hl.scans (by rw [hmain]; rfl)
  have hzero := hidle .w64
  rw [hmain] at hreq hflight hscans
  simp only [MainPc.asked, MainPc.holding] at hreq hflight hscans
  exact ⟨by omega, by omega, by omega⟩

/-- On every input the processes come to their end, and whenever they have, the readers have
sent two words too many: both were scanned for behind the loop of `main`, and both are unread. -/
theorem shutdown_overreads (entries : List Entry) (honly : OnlyLast (wordsOf entries))
    (stdin : Text) (hreads : ReadsEntries stdin entries) (g : Garbage) :
    (∃ acts st, run State.step (start stdin g) acts = some st ∧ st.Finished) ∧
      ∀ acts st, run State.step (start stdin g) acts = some st → st.Finished →
        ¬OneWordEach st ∧ st.sent = st.processed + 2 ∧ st.late = 2 ∧ st.fdBoth.length = 2 := by
  refine ⟨(course_start g honly hreads).finishes honly, ?_⟩
  intro acts st hrun hfin
  obtain ⟨hb, hl⟩ := late_of_run hrun
  have hcounts := hfin.counts hb hl
  refine ⟨?_, hcounts⟩
  intro hone
  have hsent := hcounts.1
  have heq := hone.1
  omega

/-- One word that ends the input. -/
theorem shutdown_overreads_one :
    (∃ acts st, run State.step (start (linesOf [⟨.w64, 0xcf⟩]) ⟨0, 0, 0, 0, fun _ => 0⟩) acts =
        some st ∧ st.Finished) ∧
      ∀ acts st, run State.step (start (linesOf [⟨.w64, 0xcf⟩]) ⟨0, 0, 0, 0, fun _ => 0⟩) acts =
        some st → st.Finished →
        ¬OneWordEach st ∧ st.sent = st.processed + 2 ∧ st.late = 2 ∧ st.fdBoth.length = 2 :=
  shutdown_overreads [⟨.w64, 0xcf⟩] ⟨[], 0xcf, rfl, by simp, by decide⟩ _ (reads_linesOf _) _

/-- The word `cf` in the 64 form ends the input, and `41` and `43` come behind it: `reader64`
reads and sends them too. -/
theorem overreads_behind :
    ¬∀ (entries : List Entry) (stdin : Text) (g : Garbage) (acts : List Act) (st : State),
      OnlyLast (wordsOf entries) → ReadsEntries stdin entries →
        run State.step (start stdin g) acts = some st → st.Finished → OneWordEach st := by
  let stdin : Text := [54, 52, 10, 99, 102, 10, 52, 49, 10, 52, 51, 10]
  let word : List Act := [.reader .w64, .reader .w64, .reader .w64]
  let acts : List Act := [.main, .main] ++ word ++ [.main, .main, .main] ++ word ++ word ++
    [.main, .main, .reader .w32, .reader .w64, .main, .main]
  have hrun : (run State.step (start stdin ⟨0, 0, 0, 0, fun _ => 0⟩) acts).map (fun st =>
      ((st.main, (st.reader .w32).pc, (st.reader .w64).pc), st.stdin, st.fdBoth)) =
        some ((.exited, .exited, .exited), [10], [0x41, 0x43]) := by decide +kernel
  obtain ⟨st, hst, hfields⟩ := Option.map_eq_some_iff.mp hrun
  obtain ⟨hpcs, hrest⟩ := Prod.mk.inj hfields
  obtain ⟨hmain, hreaders⟩ := Prod.mk.inj hpcs
  obtain ⟨h32, h64⟩ := Prod.mk.inj hreaders
  obtain ⟨_, hboth⟩ := Prod.mk.inj hrest
  have hform : scanInt stdin = (some 64, [10, 99, 102, 10, 52, 49, 10, 52, 51, 10]) := by
    decide +kernel
  have hword : scanHex16 [10, 99, 102, 10, 52, 49, 10, 52, 51, 10] =
      (some 0xcf, [10, 52, 49, 10, 52, 51, 10]) := by decide +kernel
  intro h
  have hone := h [⟨.w64, 0xcf⟩] stdin _ acts st ⟨[], 0xcf, rfl, by simp, by decide⟩
    ⟨64, _, _, hform, by decide, hword, trivial⟩ hst
    ⟨hmain, fun k => by cases k; exacts [h32, h64]⟩
  rw [hone.2.2] at hboth
  cases hboth

end OsSolutions.Readers
