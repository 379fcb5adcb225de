import OsSolutions.Transition.Run
import OsSolutions.Verification.Readers.Steps

/-! # Requests, words and replies

Every byte that a reader gets makes it read and send one word, whatever the byte says. So the
bytes that `main` sends, the words that the readers send and the replies that `main` reads
can be counted against each other, on every input. -/

namespace OsSolutions.Readers

open Transition

variable {st st' : State} {k : Width}

/-! ## Counting -/

/-- Whether `main` still has the write end of the request pipe. -/
def MainPc.holds : MainPc → Width → Bool
  | .close64, .w32 | .wait _, _ | .exited, _ => false
  | _, _ => true

/-- The request bytes that `main` has sent, apart from one for each word it has run on. -/
def MainPc.asked : MainPc → ℕ
  | .scan | .request | .stop => 0
  | .read | .run => 1
  | .close32 | .close64 | .wait _ | .exited => 2

/-- Whether `main` has read a reply that it has not run on. -/
def MainPc.holding : MainPc → ℕ
  | .run => 1
  | _ => 0

/-- The word that a reader has been asked for and has not sent. -/
def ReaderPc.busy : ReaderPc → ℕ
  | .read | .exited => 0
  | .scan | .scanHigh | .write => 1

/-- The words that a reader is still going to send. -/
def Reader.backlog (r : Reader) : ℕ := r.pipe.length + r.pc.busy

def State.backlog (st : State) : ℕ := (st.reader .w32).backlog + (st.reader .w64).backlog

theorem setReader_backlog (st : State) (k : Width) (r : Reader) :
    (st.setReader k r).backlog + (st.reader k).backlog = st.backlog + r.backlog :=
  State.setReader_sum (fun _ => Reader.backlog) st k r

theorem send_backlog (st : State) (k : Width) (bytes : Text) :
    (st.send k bytes).backlog = st.backlog + bytes.length := by
  have hset := setReader_backlog st k
    { st.reader k with pipe := (st.reader k).pipe ++ bytes }
  have hlen : Reader.backlog { st.reader k with pipe := (st.reader k).pipe ++ bytes } =
      (st.reader k).backlog + bytes.length := by
    simp only [Reader.backlog, List.length_append]
    omega
  show (st.setReader k _).backlog = _
  omega

theorem close_backlog (st : State) (k : Width) : (st.close k).backlog = st.backlog := by
  have hset := setReader_backlog st k { st.reader k with isOpen := false }
  have hsame : Reader.backlog { st.reader k with isOpen := false } = (st.reader k).backlog := rfl
  show (st.setReader k _).backlog = _
  omega

/-! ## The invariant -/

structure Balance (st : State) : Prop where
  open_eq : ∀ k, (st.reader k).isOpen = st.main.holds k
  exited : ∀ k, (st.reader k).pc = .exited →
    (st.reader k).pipe = [] ∧ (st.reader k).isOpen = false
  requests : st.sent + st.backlog = st.processed + st.main.asked
  replies : st.fdBoth.length + st.processed + st.main.holding = st.sent

theorem balance_start (stdin : Text) (g : Garbage) : Balance (start stdin g) where
  open_eq k := by cases k <;> rfl
  exited k h := by cases h
  requests := rfl
  replies := rfl

/-- A reader exits only after `main` has closed its pipe. -/
theorem Balance.not_exited (h : Balance st) (hk : st.main.holds k = true) :
    (st.reader k).pc ≠ .exited := by
  intro hpc
  have hopen := h.open_eq k
  rw [(h.exited k hpc).2, hk] at hopen
  cases hopen

/-- Every request that `main` has not got the word for is with a reader or in the reply pipe. -/
theorem Balance.in_flight (h : Balance st) :
    st.backlog + st.fdBoth.length + st.main.holding = st.main.asked := by
  have hreq := h.requests
  have hrep := h.replies
  omega

/-- What `send` and `close` do to a reader that has not exited. -/
theorem Balance.setReader (h : Balance st) {r : Reader} {c : MainPc}
    (hpc : r.pc = (st.reader k).pc) (hnot : (st.reader k).pc ≠ .exited)
    (hopen : r.isOpen = c.holds k) (hsame : ∀ j, j ≠ k → c.holds j = st.main.holds j) :
    ∀ j, ((st.setReader k r).reader j).isOpen = c.holds j ∧
      (((st.setReader k r).reader j).pc = .exited →
        ((st.setReader k r).reader j).pipe = [] ∧
          ((st.setReader k r).reader j).isOpen = false) := by
  intro j
  by_cases hj : j = k
  · subst hj
    rw [State.setReader_self, hpc]
    exact ⟨hopen, fun hex => absurd hex hnot⟩
  · rw [State.setReader_of_ne hj, hsame j hj]
    exact ⟨h.open_eq j, h.exited j⟩

/-- `main` sends bytes to a reader and goes on to `c`. -/
theorem Balance.send (h : Balance st) (k : Width) (bytes : Text) {c : MainPc}
    (hk : st.main.holds k = true) (hholds : ∀ j, c.holds j = st.main.holds j)
    (hasked : c.asked = st.main.asked + bytes.length) (hholding : c.holding = st.main.holding) :
    Balance { st.send k bytes with main := c } := by
  have hset := h.setReader (k := k) (c := c)
    (r := { st.reader k with pipe := (st.reader k).pipe ++ bytes }) rfl (h.not_exited hk)
    (by rw [h.open_eq, hholds]) fun j _ => hholds j
  have hback := send_backlog st k bytes
  have hreq := h.requests
  have hrep := h.replies
  refine ⟨fun j => (hset j).1, fun j => (hset j).2, ?_, ?_⟩
  · show st.sent + (st.send k bytes).backlog = st.processed + c.asked
    omega
  · show st.fdBoth.length + st.processed + c.holding = st.sent
    omega

/-- `main` closes its end of a request pipe and goes on to `c`. -/
theorem Balance.close (h : Balance st) (k : Width) {c : MainPc} (hk : st.main.holds k = true)
    (hclosed : c.holds k = false) (hsame : ∀ j, j ≠ k → c.holds j = st.main.holds j)
    (hasked : c.asked = st.main.asked) (hholding : c.holding = st.main.holding) :
    Balance { st.close k with main := c } := by
  have hset := h.setReader (k := k) (c := c) (r := { st.reader k with isOpen := false }) rfl
    (h.not_exited hk) hclosed.symm hsame
  have hback := close_backlog st k
  have hreq := h.requests
  have hrep := h.replies
  refine ⟨fun j => (hset j).1, fun j => (hset j).2, ?_, ?_⟩
  · show st.sent + (st.close k).backlog = st.processed + c.asked
    omega
  · show st.fdBoth.length + st.processed + c.holding = st.sent
    omega

theorem Balance.main_step (h : Balance st) (hs : MainStep st st') : Balance st' := by
  have hopen := h.open_eq
  have hreq := h.requests
  have hrep := h.replies
  cases hs with
  | scan hpc =>
      rw [hpc] at hopen hreq hrep
      exact ⟨fun k => by rw [hopen]; cases k <;> rfl, h.exited, hreq, hrep⟩
  | request hpc =>
      exact h.send st.target [49] (by rw [hpc]; cases st.target <;> rfl)
        (fun j => by rw [hpc]; cases j <;> rfl) (by rw [hpc]; rfl) (by rw [hpc]; rfl)
  | @reply word rest hpc hboth =>
      rw [hpc] at hopen hreq hrep
      refine ⟨fun k => by rw [hopen]; cases k <;> rfl, h.exited, hreq, ?_⟩
      rw [hboth] at hrep
      simp only [List.length_cons, MainPc.holding] at hrep ⊢
      omega
  | stale hpc hexited =>
      exact absurd (hexited .w32) (h.not_exited (by rw [hpc]; rfl))
  | @ran polygons done hpc hrun =>
      rw [hpc] at hopen hreq hrep
      simp only [MainPc.asked, MainPc.holding] at hreq hrep
      cases done
      · refine ⟨fun k => by rw [hopen]; cases k <;> rfl, h.exited, hreq, ?_⟩
        show st.fdBoth.length + (st.processed + 1) + 0 = st.sent
        omega
      · refine ⟨fun k => by rw [hopen]; cases k <;> rfl, h.exited, hreq, ?_⟩
        show st.fdBoth.length + (st.processed + 1) + 0 = st.sent
        omega
  | stop hpc =>
      exact h.send .w64 [48, 10] (by rw [hpc]; rfl) (fun j => by rw [hpc]; cases j <;> rfl)
        (by rw [hpc]; rfl) (by rw [hpc]; rfl)
  | close32 hpc =>
      apply h.close .w32 (by rw [hpc]; rfl) rfl _ (by rw [hpc]; rfl) (by rw [hpc]; rfl)
      intro j hj
      cases j with
      | w32 => exact absurd rfl hj
      | w64 => rw [hpc]; rfl
  | close64 hpc =>
      apply h.close .w64 (by rw [hpc]; rfl) rfl _ (by rw [hpc]; rfl) (by rw [hpc]; rfl)
      intro j hj
      cases j with
      | w32 => rw [hpc]; rfl
      | w64 => exact absurd rfl hj
  | @wait n hpc hlt =>
      rw [hpc] at hopen hreq hrep
      split
      · exact ⟨fun k => by rw [hopen]; cases k <;> rfl, h.exited, hreq, hrep⟩
      · exact ⟨fun k => by rw [hopen]; cases k <;> rfl, h.exited, hreq, hrep⟩

/-- A step that changes a reader, the reply pipe and the number of words sent keeps the
balance when it keeps the counts. -/
theorem Balance.reader_moves (h : Balance st) {r : Reader}
    (hreader : st'.reader = (st.setReader k r).reader) (hmain : st'.main = st.main)
    (hproc : st'.processed = st.processed) (hopen : r.isOpen = (st.reader k).isOpen)
    (hexited : r.pc = .exited → r.pipe = [] ∧ r.isOpen = false)
    (hreq : st'.sent + r.backlog = st.sent + (st.reader k).backlog)
    (hrep : st'.fdBoth.length + st.sent = st.fdBoth.length + st'.sent) : Balance st' := by
  have hset := setReader_backlog st k r
  have hback : st'.backlog = (st.setReader k r).backlog := by
    rw [State.backlog, hreader]
    rfl
  refine ⟨?_, ?_, ?_, ?_⟩
  · intro j
    rw [hreader, hmain, ← h.open_eq j]
    by_cases hj : j = k
    · subst hj
      rw [State.setReader_self, hopen]
    · rw [State.setReader_of_ne hj]
  · intro j
    rw [hreader]
    by_cases hj : j = k
    · subst hj
      rw [State.setReader_self]
      exact hexited
    · rw [State.setReader_of_ne hj]
      exact h.exited j
  · have hall := h.requests
    rw [hback, hproc, hmain]
    omega
  · have hall := h.replies
    rw [hproc, hmain]
    omega

/-- A `scanf` leaves the reader with the word still to be sent. -/
theorem Balance.scanf (h : Balance st) (scan : Text → Option UInt64 × Text)
    {store : Reader → Option UInt64 → Reader} (hbusy : (st.reader k).pc.busy = 1)
    (hstore : ∀ r v, (store r v).pipe = r.pipe ∧ (store r v).isOpen = r.isOpen ∧
      (store r v).pc.busy = 1) : Balance (st.scanf k scan store) := by
  obtain ⟨hpipe, hopen, hpc⟩ := hstore (st.reader k) (scan st.stdin).1
  refine h.reader_moves (k := k) rfl rfl rfl hopen ?_ ?_ rfl
  · intro hex
    rw [hex] at hpc
    cases hpc
  · simp [Reader.backlog, hpipe, hpc, hbusy, State.scanf]

theorem Balance.reader_step (h : Balance st) (hs : ReaderStep st k st') : Balance st' := by
  cases hs with
  | @signal c pipe hpc hpipe =>
      refine h.reader_moves (k := k) rfl rfl rfl rfl ?_ ?_ rfl
      · intro hex
        cases hex
      · simp [Reader.backlog, hpc, hpipe, ReaderPc.busy]
  | closed hpc hpipe hclosed =>
      refine h.reader_moves (k := k) rfl rfl rfl rfl ?_ ?_ rfl
      · exact fun _ => ⟨hpipe, hclosed⟩
      · simp [Reader.backlog, hpc, hpipe, ReaderPc.busy]
  | low hk hpc => exact h.scanf scanLong (by rw [hpc]; rfl) fun r v => ⟨rfl, rfl, rfl⟩
  | high hk hpc => exact h.scanf scanLong (by rw [hpc]; rfl) fun r v => ⟨rfl, rfl, rfl⟩
  | word hk hpc => exact h.scanf scanHex16 (by rw [hpc]; rfl) fun r v => ⟨rfl, rfl, rfl⟩
  | write hpc =>
      refine h.reader_moves (k := k) rfl rfl rfl rfl ?_ ?_ ?_
      · intro hex
        cases hex
      · simp only [Reader.backlog, hpc, ReaderPc.busy, State.writeReply]
        omega
      · simp only [State.writeReply, List.length_append, List.length_singleton]
        omega

theorem step_balance {a : Act} (h : Balance st) (hs : st.step a = some st') : Balance st' := by
  cases a with
  | main => exact h.main_step (main_cases hs)
  | reader k => exact h.reader_step (reader_cases hs)

end OsSolutions.Readers
