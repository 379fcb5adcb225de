import OsSolutions.Model.ReaderMachine

/-! # The steps of the main process and of the readers, branch by branch -/

namespace OsSolutions.Readers

variable {st st' : State} {k : Width}

/-! ## Fields after a write -/

namespace State

@[simp] theorem setReader_self (r : Reader) : (st.setReader k r).reader k = r := by
  simp [setReader]

@[simp] theorem setReader_of_ne {j : Width} (h : j ≠ k) (r : Reader) :
    (st.setReader k r).reader j = st.reader j := by
  simp [setReader, h]

@[simp] theorem setReader_sent (r : Reader) : (st.setReader k r).sent = st.sent := rfl

@[simp] theorem setReader_processed (r : Reader) :
    (st.setReader k r).processed = st.processed := rfl

/-- A sum over both readers changes with the one that is written. -/
theorem setReader_sum (f : Width → Reader → ℕ) (st : State) (k : Width) (r : Reader) :
    f .w32 ((st.setReader k r).reader .w32) + f .w64 ((st.setReader k r).reader .w64) +
        f k (st.reader k) =
      f .w32 (st.reader .w32) + f .w64 (st.reader .w64) + f k r := by
  cases k
  · rw [setReader_self, setReader_of_ne (by decide)]
    omega
  · rw [setReader_self, setReader_of_ne (by decide)]
    omega

variable (scan : Text → Option UInt64 × Text) (store : Reader → Option UInt64 → Reader)

@[simp] theorem scanf_self :
    (st.scanf k scan store).reader k = store (st.reader k) (scan st.stdin).1 := by
  simp [scanf, setReader]

@[simp] theorem scanf_stdin : (st.scanf k scan store).stdin = (scan st.stdin).2 := rfl

end State

/-! ## Inversion -/

inductive MainStep (st : State) : State → Prop
  | scan : st.main = .scan → MainStep st
      { st with
        stdin := (scanInt st.stdin).2
        readerToRun := (scanInt st.stdin).1.getD st.readerToRun
        main := .request }
  | request : st.main = .request → MainStep st { st.send st.target [49] with main := .read }
  | reply {word rest} : st.main = .read → st.fdBoth = word :: rest →
      MainStep st { st with fdBoth := rest, nextPolygon := word, main := .run }
  | stale : st.main = .read → (∀ k, (st.reader k).pc = .exited) →
      MainStep st { st with main := .run }
  | ran {polygons done} : st.main = .run →
      st.polygons.runOnPolygon st.nextPolygon = some (polygons, done) →
      MainStep st
        { st with
          polygons, processed := st.processed + 1, main := if done then .stop else .scan }
  | stop : st.main = .stop → MainStep st { st.send .w64 [48, 10] with main := .close32 }
  | close32 : st.main = .close32 → MainStep st { st.close .w32 with main := .close64 }
  | close64 : st.main = .close64 → MainStep st { st.close .w64 with main := .wait 0 }
  | wait {n} : st.main = .wait n → n < st.zombies →
      MainStep st { st with main := if n = 0 then .wait 1 else .exited }

inductive ReaderStep (st : State) (k : Width) : State → Prop
  | signal {c pipe} : (st.reader k).pc = .read → (st.reader k).pipe = c :: pipe →
      ReaderStep st k (st.setReader k { st.reader k with pipe, pc := .scan })
  | closed : (st.reader k).pc = .read → (st.reader k).pipe = [] → (st.reader k).isOpen = false →
      ReaderStep st k (st.setReader k { st.reader k with pc := .exited })
  | low : k = .w32 → (st.reader k).pc = .scan →
      ReaderStep st k (st.scanf k scanLong Reader.storeLow)
  | high : k = .w32 → (st.reader k).pc = .scanHigh →
      ReaderStep st k (st.scanf k scanLong Reader.storeHigh)
  | word : k = .w64 → (st.reader k).pc = .scan →
      ReaderStep st k (st.scanf k scanHex16 Reader.storeWord)
  | write : (st.reader k).pc = .write → ReaderStep st k (st.writeReply k)

theorem ReaderStep.frame (h : ReaderStep st k st') :
    st'.main = st.main ∧ st'.polygons = st.polygons ∧ st'.processed = st.processed := by
  cases h
  all_goals exact ⟨rfl, rfl, rfl⟩

theorem MainStep.pc_eq (h : MainStep st st') (k : Width) :
    (st'.reader k).pc = (st.reader k).pc := by
  have hset : ∀ (j : Width) (r : Reader), r.pc = (st.reader j).pc →
      ((st.setReader j r).reader k).pc = (st.reader k).pc := by
    intro j r hr
    by_cases hk : k = j
    · subst hk
      rw [State.setReader_self, hr]
    · rw [State.setReader_of_ne hk]
  cases h with
  | request => exact hset _ _ rfl
  | stop => exact hset _ _ rfl
  | close32 => exact hset _ _ rfl
  | close64 => exact hset _ _ rfl
  | _ => rfl

theorem main_cases (h : st.step .main = some st') : MainStep st st' := by
  change st.runMain = some st' at h
  cases hpc : st.main with
  | scan =>
      simp only [State.runMain, hpc, Option.some.injEq] at h
      subst h
      exact .scan hpc
  | request =>
      simp only [State.runMain, hpc, Option.some.injEq] at h
      subst h
      exact .request hpc
  | read =>
      simp only [State.runMain, hpc] at h
      split at h
      · rename_i word rest hboth
        obtain rfl := Option.some.inj h
        exact .reply hpc hboth
      · split at h
        · rename_i hexited
          obtain rfl := Option.some.inj h
          apply MainStep.stale hpc
          intro k
          cases k
          · simpa [State.exited] using hexited.1
          · simpa [State.exited] using hexited.2
        · cases h
  | run =>
      simp only [State.runMain, hpc, Option.map_eq_some_iff] at h
      obtain ⟨⟨polygons, done⟩, hrun, rfl⟩ := h
      exact .ran hpc hrun
  | stop =>
      simp only [State.runMain, hpc, Option.some.injEq] at h
      subst h
      exact .stop hpc
  | close32 =>
      simp only [State.runMain, hpc, Option.some.injEq] at h
      subst h
      exact .close32 hpc
  | close64 =>
      simp only [State.runMain, hpc, Option.some.injEq] at h
      subst h
      exact .close64 hpc
  | wait n =>
      simp only [State.runMain, hpc] at h
      split at h
      · rename_i hlt
        obtain rfl := Option.some.inj h
        exact .wait hpc hlt
      · cases h
  | exited => simp [State.runMain, hpc] at h

theorem readSignal_cases (hpc : (st.reader k).pc = .read) (h : st.readSignal k = some st') :
    ReaderStep st k st' := by
  unfold State.readSignal at h
  split at h
  · rename_i c pipe hpipe
    obtain rfl := Option.some.inj h
    exact .signal hpc hpipe
  · rename_i hpipe
    split at h
    · cases h
    · rename_i hclosed
      obtain rfl := Option.some.inj h
      exact .closed hpc hpipe (by simpa using hclosed)

theorem reader_cases (h : st.step (.reader k) = some st') : ReaderStep st k st' := by
  cases k with
  | w32 =>
      change st.reader32 = some st' at h
      cases hpc : (st.reader .w32).pc with
      | read =>
          simp only [State.reader32, hpc] at h
          exact readSignal_cases hpc h
      | scan =>
          simp only [State.reader32, hpc, Option.some.injEq] at h
          subst h
          exact .low rfl hpc
      | scanHigh =>
          simp only [State.reader32, hpc, Option.some.injEq] at h
          subst h
          exact .high rfl hpc
      | write =>
          simp only [State.reader32, hpc, Option.some.injEq] at h
          subst h
          exact .write hpc
      | exited => simp [State.reader32, hpc] at h
  | w64 =>
      change st.reader64 = some st' at h
      cases hpc : (st.reader .w64).pc with
      | read =>
          simp only [State.reader64, hpc] at h
          exact readSignal_cases hpc h
      | scan =>
          simp only [State.reader64, hpc, Option.some.injEq] at h
          subst h
          exact .word rfl hpc
      | scanHigh => simp [State.reader64, hpc] at h
      | write =>
          simp only [State.reader64, hpc, Option.some.injEq] at h
          subst h
          exact .write hpc
      | exited => simp [State.reader64, hpc] at h

end OsSolutions.Readers
