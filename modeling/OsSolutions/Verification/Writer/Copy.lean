import OsSolutions.Transition.Run
import OsSolutions.Source.Writer
import OsSolutions.Verification.Text.Hex
import Mathlib.Data.List.TakeWhile
import Mathlib.Data.Nat.Init

/-! # What the writer puts out

A byte `0xff` becomes `-1` as a `char`, and the loop takes it for the end of the file. All other
bytes go through unchanged. -/

namespace OsSolutions.Writer

open Transition

/-- The test of the loop on a byte that `getchar` returned. -/
theorem char_eq_eof_iff (c : UInt8) :
    c.toUInt32.toInt32.toInt8.toInt32 = EOF ↔ c = 255 := by
  apply forall_byte (P := fun c => c.toUInt32.toInt32.toInt8.toInt32 = EOF ↔ c = 255)
  decide +kernel

/-- A byte survives the two conversions. -/
theorem putchar_char (c : UInt8) (stdout : List UInt8) :
    putchar c.toUInt32.toInt32.toInt8.toInt32 stdout = stdout ++ [c] := by
  have hbyte : c.toUInt32.toInt32.toInt8.toInt32.toUInt32.toUInt8 = c := by
    apply forall_byte (P := fun c => c.toUInt32.toInt32.toInt8.toInt32.toUInt32.toUInt8 = c)
    decide +kernel
  rw [putchar, hbyte]

/-! ## One pass of the loop -/

theorem loop_byte {st : State} {c : UInt8} (hd : st.done = false)
    (hc : st.stdin.arrived[st.stdin.taken]? = some c) (h : c ≠ 255) :
    loop st = some { st with
      stdin := { st.stdin with taken := st.stdin.taken + 1 }
      stdout := st.stdout ++ [c] } := by
  have hchar := (char_eq_eof_iff c).not.mpr h
  simp [loop, getchar, hd, hc, hchar, putchar_char]

theorem loop_bad {st : State} (hd : st.done = false)
    (hc : st.stdin.arrived[st.stdin.taken]? = some 255) :
    loop st = some { st with
      stdin := { st.stdin with taken := st.stdin.taken + 1 }
      done := true } := by
  have heof : Int8.toInt32 255 = EOF := by decide
  simp [loop, getchar, hd, hc, heof]

theorem loop_closed {st : State} (hd : st.done = false)
    (hc : st.stdin.arrived[st.stdin.taken]? = none) (h : st.stdin.closed = true) :
    loop st = some { st with done := true } := by
  have heof : EOF.toInt8.toInt32 = EOF := by decide
  simp [loop, getchar, hd, hc, h, heof]

/-- The three ways through the loop. -/
theorem loop_cases {st st' : State} (h : loop st = some st') :
    st.done = false ∧
      ((∃ c, st.stdin.arrived[st.stdin.taken]? = some c ∧ c ≠ 255 ∧ st' = { st with
          stdin := { st.stdin with taken := st.stdin.taken + 1 }
          stdout := st.stdout ++ [c] }) ∨
        (st.stdin.arrived[st.stdin.taken]? = some 255 ∧ st' = { st with
          stdin := { st.stdin with taken := st.stdin.taken + 1 }
          done := true }) ∨
        (st.stdin.arrived[st.stdin.taken]? = none ∧ st.stdin.closed = true ∧
          st' = { st with done := true })) := by
  have hd : st.done = false := by
    by_contra hd
    simp [loop, hd] at h
  refine ⟨hd, ?_⟩
  cases hc : st.stdin.arrived[st.stdin.taken]? with
  | some c =>
      by_cases hbad : c = 255
      · subst hbad
        exact .inr (.inl ⟨rfl, by simpa [loop_bad hd hc] using h.symm⟩)
      · exact .inl ⟨c, rfl, hbad, by simpa [loop_byte hd hc hbad] using h.symm⟩
  | none =>
      have hclosed : st.stdin.closed = true := by
        by_contra hclosed
        simp [loop, getchar, hd, hc, hclosed] at h
      exact .inr (.inr ⟨rfl, hclosed, by simpa [loop_closed hd hc hclosed] using h.symm⟩)

/-! ## Whole runs -/

/-- A running loop has put out what it has taken. A loop that is over has put out what stands
before the first byte that it takes for the end. -/
structure Copied (st : State) : Prop where
  taken_le : st.stdin.taken ≤ st.stdin.arrived.length
  running : st.done = false →
    st.stdout = st.stdin.arrived.take st.stdin.taken ∧ 255 ∉ st.stdout
  ended : st.done = true →
    st.stdout = st.stdin.arrived.takeWhile (· ≠ 255) ∧
      (st.stdin.closed = true ∨ 255 ∈ st.stdin.arrived)

theorem copied_start : Copied start where
  taken_le := by simp [start]
  running _ := by simp [start]
  ended h := by simp [start] at h

theorem takeWhile_append_of_mem {l m : List UInt8} (h : 255 ∈ l) :
    (l ++ m).takeWhile (· ≠ 255) = l.takeWhile (· ≠ 255) := by
  induction l with
  | nil => simp at h
  | cons c l ih =>
      by_cases hc : c = 255
      · simp [hc]
      · have hl : 255 ∈ l := by simpa [Ne.symm hc] using h
        simpa [List.takeWhile_cons, hc] using ih hl

theorem takeWhile_all {l : List UInt8} (h : 255 ∉ l) : l.takeWhile (· ≠ 255) = l := by
  rw [List.takeWhile_eq_self_iff]
  intro c hc
  simpa using ne_of_mem_of_not_mem hc h

/-- The byte after a prefix without `0xff` ends the output, if it is `0xff`. -/
theorem takeWhile_of_getElem? {l : List UInt8} {n : ℕ} (hn : l[n]? = some 255)
    (h : 255 ∉ l.take n) : l.takeWhile (· ≠ 255) = l.take n := by
  obtain ⟨hlt, hget⟩ := List.getElem?_eq_some_iff.mp hn
  conv_lhs => rw [← List.take_append_drop n l, List.drop_eq_getElem_cons hlt, hget]
  rw [List.takeWhile_append_of_pos]
  · simp
  · intro c hc
    simpa using ne_of_mem_of_not_mem hc h

theorem copied_step {st st' : State} {a : Act} (h : Copied st) (hs : step st a = some st') :
    Copied st' := by
  cases a with
  | arrive c =>
      simp only [step] at hs
      split at hs
      · cases hs
      · rename_i hopen
        obtain rfl := Option.some.inj hs
        have hle := h.taken_le
        refine ⟨by simp; omega, ?_, ?_⟩
        · intro hd
          rw [List.take_append_of_le_length hle]
          exact h.running hd
        · intro hd
          have hmem : 255 ∈ st.stdin.arrived := (h.ended hd).2.resolve_left hopen
          exact ⟨(h.ended hd).1.trans (takeWhile_append_of_mem hmem).symm, .inr (by simp [hmem])⟩
  | close =>
      simp only [step] at hs
      split at hs
      · cases hs
      · obtain rfl := Option.some.inj hs
        exact ⟨h.taken_le, h.running, fun hd => ⟨(h.ended hd).1, .inl rfl⟩⟩
  | loop =>
      obtain ⟨hd, ⟨c, hc, hgood, rfl⟩ | ⟨hc, rfl⟩ | ⟨hc, hclosed, rfl⟩⟩ := loop_cases hs
      all_goals obtain ⟨hout, hgone⟩ := h.running hd
      · obtain ⟨hlt, hget⟩ := List.getElem?_eq_some_iff.mp hc
        refine ⟨hlt, ?_, fun hd' => absurd (hd.symm.trans hd') (by simp)⟩
        intro _
        refine ⟨?_, by simp [hgone, Ne.symm hgood]⟩
        rw [hout, ← hget]
        exact List.take_append_getElem hlt
      · obtain ⟨hlt, hget⟩ := List.getElem?_eq_some_iff.mp hc
        refine ⟨hlt, fun hd' => absurd hd' (by simp), ?_⟩
        intro _
        have hmem : 255 ∈ st.stdin.arrived := hget ▸ List.getElem_mem hlt
        exact ⟨hout.trans (takeWhile_of_getElem? hc (hout ▸ hgone)).symm, .inr hmem⟩
      · refine ⟨h.taken_le, fun hd' => absurd hd' (by simp), ?_⟩
        intro _
        have hle : st.stdin.arrived.length ≤ st.stdin.taken := List.getElem?_eq_none_iff.mp hc
        have hall : st.stdout = st.stdin.arrived := by rw [hout, List.take_of_length_le hle]
        exact ⟨hall.trans (takeWhile_all (hall ▸ hgone)).symm, .inl hclosed⟩

theorem copied_run {acts : List Act} {st : State} (h : run step start acts = some st) :
    Copied st :=
  (reachable_of_run h).invariant copied_start fun _ _ _ hc _ => copied_step hc

/-- At the end of the loop the output is the input up to the first `0xff`. -/
theorem stdout_eq_takeWhile {acts : List Act} {st : State} (h : run step start acts = some st)
    (hd : st.done = true) : st.stdout = st.stdin.arrived.takeWhile (· ≠ 255) :=
  ((copied_run h).ended hd).1

/-! ## The end of the loop -/

theorem arrived_loops {n : ℕ} {st st' : State}
    (h : run step st (List.replicate n .loop) = some st') :
    st'.stdin.arrived = st.stdin.arrived := by
  induction n generalizing st with
  | zero =>
      obtain rfl : st = st' := by simpa using h
      rfl
  | succ n ih =>
      obtain ⟨t, ht, hrest⟩ := Option.bind_eq_some_iff.mp h
      have hsame : t.stdin.arrived = st.stdin.arrived := by
        obtain ⟨-, ⟨c, -, -, rfl⟩ | ⟨-, rfl⟩ | ⟨-, -, rfl⟩⟩ := loop_cases ht <;> rfl
      exact (ih hrest).trans hsame

/-- Once the input is closed, passes of the loop alone bring it to its end. -/
theorem loop_ends {st : State} (h : st.stdin.closed = true) :
    ∃ n st', run step st (List.replicate n .loop) = some st' ∧ st'.done = true := by
  induction hm : st.stdin.arrived.length - st.stdin.taken using Nat.strong_induction_on
    generalizing st with
  | _ m ih =>
      by_cases hd : st.done = true
      · exact ⟨0, st, rfl, hd⟩
      have hd' : st.done = false := by simpa using hd
      cases hc : st.stdin.arrived[st.stdin.taken]? with
      | none => exact ⟨1, _, run_concat (run_nil st) (loop_closed hd' hc h), rfl⟩
      | some c =>
          by_cases hbad : c = 255
          · subst hbad
            exact ⟨1, _, run_concat (run_nil st) (loop_bad hd' hc), rfl⟩
          · have hlt := (List.getElem?_eq_some_iff.mp hc).1
            let t : State := { st with
              stdin := { st.stdin with taken := st.stdin.taken + 1 }
              stdout := st.stdout ++ [c] }
            have hshort : t.stdin.arrived.length - t.stdin.taken < m := by
              change st.stdin.arrived.length - (st.stdin.taken + 1) < m
              omega
            have hclosed : t.stdin.closed = true := h
            obtain ⟨n, st', hrun, hend⟩ := ih _ hshort hclosed rfl
            refine ⟨n + 1, st', ?_, hend⟩
            rw [List.replicate_succ, run_cons, step, loop_byte hd' hc hbad]
            exact hrun

/-- However the bytes arrive, once they are all there and the input is closed, the loop comes to
its end and has put out exactly them. -/
def Copies (bytes : List UInt8) : Prop :=
  ∀ acts st, run step start acts = some st → st.stdin.closed = true → st.stdin.arrived = bytes →
    ∃ n st', run step st (List.replicate n .loop) = some st' ∧ st'.done = true ∧
      st'.stdout = bytes

/-- Some run lets the bytes arrive and closes the input. -/
theorem exists_closed (bytes : List UInt8) :
    ∃ st, run step start (bytes.map .arrive ++ [.close]) = some st ∧ st.stdin.closed = true ∧
      st.stdin.arrived = bytes := by
  have harrive : ∀ st : State, st.stdin.closed = false →
      run step st (bytes.map .arrive) = some { st with
        stdin := { st.stdin with arrived := st.stdin.arrived ++ bytes } } := by
    induction bytes with
    | nil => intro st _; simp
    | cons c bytes ih =>
        intro st hopen
        have hrest :=
          ih { st with stdin := { st.stdin with arrived := st.stdin.arrived ++ [c] } } hopen
        simpa [run_cons, step, hopen] using hrest
  exact ⟨_, run_concat (harrive start rfl) rfl, rfl, by simp [start]⟩

/-- Passes of the loop that bring it to its end leave the input up to the first `0xff`. -/
theorem stdout_loops {acts : List Act} {st st' : State} {n : ℕ}
    (h : run step start acts = some st)
    (hn : run step st (List.replicate n .loop) = some st') (hd : st'.done = true) :
    st'.stdout = st.stdin.arrived.takeWhile (· ≠ 255) := by
  have hrun : run step start (acts ++ List.replicate n .loop) = some st' := by
    rw [run_append, h]
    exact hn
  rw [stdout_eq_takeWhile hrun hd, arrived_loops hn]

theorem copies_iff_takeWhile (bytes : List UInt8) :
    Copies bytes ↔ bytes.takeWhile (· ≠ 255) = bytes := by
  constructor
  · intro h
    obtain ⟨st, hrun, hclosed, harr⟩ := exists_closed bytes
    obtain ⟨n, st', hn, hd, hout⟩ := h _ st hrun hclosed harr
    rw [← harr, ← stdout_loops hrun hn hd, hout, harr]
  · rintro h acts st hrun hclosed rfl
    obtain ⟨n, st', hn, hd⟩ := loop_ends hclosed
    exact ⟨n, st', hn, hd, (stdout_loops hrun hn hd).trans h⟩

/-- The writer copies the inputs without a byte `0xff`, and no others. -/
theorem copies_iff (bytes : List UInt8) : Copies bytes ↔ 255 ∉ bytes := by
  rw [copies_iff_takeWhile]
  constructor
  · intro h hmem
    rw [List.takeWhile_eq_self_iff] at h
    simpa using h 255 hmem
  · exact takeWhile_all

/-- Three bytes arrive, and one is put out. -/
theorem writer_truncates : ¬Copies [97, 255, 98] := by
  rw [copies_iff_takeWhile]
  decide

end OsSolutions.Writer
