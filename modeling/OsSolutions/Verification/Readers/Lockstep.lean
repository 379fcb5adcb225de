import OsSolutions.Verification.Polygon.Meaning
import OsSolutions.Verification.Readers.Balance

/-! # The readers in step with the main process

Until `main` leaves its loop, one request at most is on its way, and the text that is left
starts where the process that has it expects. -/

namespace OsSolutions.Readers

open OsSolutions.Polygon Transition

variable {st st' : State} {k : Width} {e : Entry} {es entries : List Entry}

def wordsOf (entries : List Entry) : List UInt64 := entries.map Entry.word

/-! ## What is on its way -/

/-- A reader with nothing to do waits for a request. -/
theorem Balance.waits (h : Balance st) (hopen : st.main.holds k = true)
    (hback : (st.reader k).backlog = 0) :
    (st.reader k).pc = .read ∧ (st.reader k).pipe = [] := by
  have hbusy : (st.reader k).pc.busy = 0 := by
    rw [Reader.backlog] at hback
    omega
  refine ⟨?_, List.length_eq_zero_iff.mp (by rw [Reader.backlog] at hback; omega)⟩
  have hnot := h.not_exited hopen
  cases hpc : (st.reader k).pc with
  | read => rfl
  | exited => exact absurd hpc hnot
  | scan => rw [hpc] at hbusy; cases hbusy
  | scanHigh => rw [hpc] at hbusy; cases hbusy
  | write => rw [hpc] at hbusy; cases hbusy

theorem backlog_le (st : State) (k : Width) : (st.reader k).backlog ≤ st.backlog := by
  cases k
  · exact Nat.le_add_right _ _
  · exact Nat.le_add_left _ _

theorem backlog_of_ne (st : State) {j : Width} (h : j ≠ k) :
    (st.reader j).backlog + (st.reader k).backlog = st.backlog := by
  cases j <;> cases k
  · exact absurd rfl h
  · rfl
  · exact Nat.add_comm _ _
  · exact absurd rfl h

/-- Before its request `main` finds both readers waiting. -/
theorem Balance.waits_of_request (h : Balance st) (hpc : st.main = .request) (k : Width) :
    (st.reader k).pc = .read ∧ (st.reader k).pipe = [] := by
  have hle := backlog_le st k
  have hflight := h.in_flight
  rw [hpc] at hflight
  simp only [MainPc.holding, MainPc.asked] at hflight
  exact h.waits (by rw [hpc]; cases k <;> rfl) (by omega)

/-- Once the reply is there, no reader has anything to do. -/
theorem Balance.backlog_of_reply (h : Balance st) {word : UInt64} {rest : List UInt64}
    (hpc : st.main = .read) (hboth : st.fdBoth = word :: rest) (k : Width) :
    (st.reader k).backlog = 0 := by
  have hle := backlog_le st k
  have hflight := h.in_flight
  rw [hpc, hboth] at hflight
  simp only [MainPc.holding, MainPc.asked, List.length_cons] at hflight
  omega

/-- While `main` has the write ends, a reader that moves has a word to send. -/
theorem Balance.backlog_pos (h : Balance st) (hs : ReaderStep st k st')
    (hopen : st.main.holds k = true) : 1 ≤ (st.reader k).backlog := by
  cases hs with
  | signal hpc hpipe =>
      rw [Reader.backlog, hpipe, List.length_cons]
      omega
  | closed hpc hpipe hclosed =>
      rw [h.open_eq, hopen] at hclosed
      cases hclosed
  | low hk hpc => simp [Reader.backlog, hpc, ReaderPc.busy]
  | high hk hpc => simp [Reader.backlog, hpc, ReaderPc.busy]
  | word hk hpc => simp [Reader.backlog, hpc, ReaderPc.busy]
  | write hpc => simp [Reader.backlog, hpc, ReaderPc.busy]

theorem holds_of_not_left {c : MainPc} (h : c.left = false) (k : Width) : c.holds k = true := by
  cases c
  all_goals cases k
  all_goals first | rfl | cases h

/-- In the loop a reader moves only while `main` waits for its word. -/
theorem Balance.awaited (h : Balance st) (hs : ReaderStep st k st')
    (hleft : st.main.left = false) :
    st.main = .read ∧ st.fdBoth = [] ∧ ∀ j, 1 ≤ (st.reader j).backlog → k = j := by
  have hmoves := h.backlog_pos hs (holds_of_not_left hleft k)
  have hle := backlog_le st k
  have hflight := h.in_flight
  have hasked : st.main.holding + 1 ≤ st.main.asked := by omega
  have hread : st.main = .read := by
    cases hpc : st.main with
    | read => rfl
    | scan => rw [hpc] at hasked; exact absurd hasked (by decide)
    | request => rw [hpc] at hasked; exact absurd hasked (by decide)
    | run => rw [hpc] at hasked; exact absurd hasked (by decide)
    | _ => rw [hpc] at hleft; cases hleft
  rw [hread] at hflight
  simp only [MainPc.holding, MainPc.asked] at hflight
  refine ⟨hread, List.length_eq_zero_iff.mp (by omega), ?_⟩
  intro j hj
  by_contra hk
  have hsum := backlog_of_ne st hk
  omega

/-! ## The invariant -/

/-- The reader has the request for `e`, or parts of the word, or the word. -/
def InReader (st : State) (e : Entry) (es : List Entry) : Prop :=
  match (st.reader e.width).pc with
  | .read | .scan => ∃ rest, ReadsWord e st.stdin rest ∧ ReadsEntries rest es
  | .scanHigh =>
      e.width = .w32 ∧ (st.reader e.width).part0 = e.word &&& 0xffffffff ∧
        ∃ rest, scanLong st.stdin = (some (e.word >>> 32), rest) ∧ ReadsEntries rest es
  | .write => (st.reader e.width).nextPolygon = e.word ∧ ReadsEntries st.stdin es
  | .exited => False

/-- Where `e` is while `main` is in its loop, with `es` still to come. -/
inductive Turn (st : State) (e : Entry) (es : List Entry) : Prop
  | scan : st.main = .scan → ReadsEntries st.stdin (e :: es) → Turn st e es
  | request {rest} : st.main = .request → st.target = e.width → ReadsWord e st.stdin rest →
      ReadsEntries rest es → Turn st e es
  | served : st.main = .read → 1 ≤ (st.reader e.width).backlog → InReader st e es → Turn st e es
  | sent : st.main = .read → st.fdBoth = [e.word] → ReadsEntries st.stdin es → Turn st e es
  | run : st.main = .run → st.nextPolygon = e.word → ReadsEntries st.stdin es → Turn st e es

/-- What the place of `main` says about `e`. -/
theorem Turn.inv (h : Turn st e es) :
    match st.main with
    | .scan => ReadsEntries st.stdin (e :: es)
    | .request => st.target = e.width ∧ ∃ rest, ReadsWord e st.stdin rest ∧ ReadsEntries rest es
    | .read =>
        1 ≤ (st.reader e.width).backlog ∧ InReader st e es ∨
          st.fdBoth = [e.word] ∧ ReadsEntries st.stdin es
    | .run => st.nextPolygon = e.word ∧ ReadsEntries st.stdin es
    | _ => False := by
  cases h with
  | scan hmain hreads =>
      rw [hmain]
      exact hreads
  | request hmain htarget hword hrest =>
      rw [hmain]
      exact ⟨htarget, _, hword, hrest⟩
  | served hmain hback hin =>
      rw [hmain]
      exact .inl ⟨hback, hin⟩
  | sent hmain hboth hreads =>
      rw [hmain]
      exact .inr ⟨hboth, hreads⟩
  | run hmain hword hreads =>
      rw [hmain]
      exact ⟨hword, hreads⟩

structure Lockstep (entries : List Entry) (st : State) : Prop where
  after : st.polygons.After (wordsOf (entries.take st.processed))
  turn : st.main.left = false → ∃ e es, entries.drop st.processed = e :: es ∧ Turn st e es
  ended : st.main.left = true → st.processed = entries.length

theorem lockstep_start {stdin : Text} (g : Garbage) (honly : OnlyLast (wordsOf entries))
    (hreads : ReadsEntries stdin entries) : Lockstep entries (start stdin g) := by
  refine ⟨Polygons.after_empty, ?_, ?_⟩
  · intro _
    cases entries with
    | nil =>
        obtain ⟨front, last, heq, _⟩ := honly
        simp [wordsOf] at heq
    | cons e es => exact ⟨e, es, rfl, .scan rfl hreads⟩
  · intro hleft
    cases hleft

/-- The two halves make the word. -/
theorem halves (w : UInt64) : ((w >>> 32) <<< 32) + (w &&& 0xffffffff) = w := by
  apply UInt64.toNat_inj.mp
  have hlt := w.toNat_lt
  have hlow : w.toNat &&& 0xffffffff = w.toNat % 2 ^ 32 := Nat.and_two_pow_sub_one_eq_mod w.toNat 32
  simp [UInt64.toNat_add, UInt64.toNat_shiftLeft, UInt64.toNat_shiftRight, hlow,
    Nat.shiftLeft_eq, Nat.shiftRight_eq_div_pow]
  omega

/-! ## Steps of `main` -/

theorem target_eq {n : Int32} (hn : n = 32 ↔ e.width = .w32) (hst : st.readerToRun = n) :
    st.target = e.width := by
  rw [State.target, hst]
  by_cases h : n = 32
  · rw [if_pos h, hn.mp h]
  · rw [if_neg h]
    cases hw : e.width with
    | w32 => exact absurd (hn.mpr hw) h
    | w64 => rfl

theorem wordsOf_take_succ {k : ℕ} (h : entries.drop k = e :: es) :
    wordsOf (entries.take (k + 1)) = wordsOf (entries.take k) ++ [e.word] := by
  have hget : entries[k]? = some e := by
    rw [← List.head?_drop, h]
    rfl
  rw [List.take_add_one, hget]
  simp [wordsOf]

theorem last_iff (honly : OnlyLast (wordsOf entries)) {k : ℕ} (h : entries.drop k = e :: es) :
    bit e.word 0 = true ↔ es = [] := by
  have hlen := congrArg List.length h
  simp only [List.length_drop, List.length_cons] at hlen
  have hget : entries[k]? = some e := by
    rw [← List.head?_drop, h]
    rfl
  have hk : k < (wordsOf entries).length := by
    rw [wordsOf, List.length_map]
    omega
  have hword : (wordsOf entries)[k] = e.word := by
    apply Option.some.inj
    rw [← List.getElem?_eq_getElem hk, wordsOf, List.getElem?_map, hget]
    rfl
  have hbit := honly.bit_iff hk
  rw [hword] at hbit
  rw [hbit, wordsOf, List.length_map, ← List.length_eq_zero_iff]
  omega

theorem drop_succ {k : ℕ} (h : entries.drop k = e :: es) : entries.drop (k + 1) = es := by
  rw [← List.drop_drop, h]
  rfl

theorem Lockstep.main_step (h : Lockstep entries st) (hb : Balance st)
    (honly : OnlyLast (wordsOf entries)) (hs : MainStep st st') : Lockstep entries st' := by
  cases hs with
  | scan hpc =>
      obtain ⟨e, es, heq, hturn⟩ := h.turn (by rw [hpc]; rfl)
      have hreads := hturn.inv
      rw [hpc] at hreads
      obtain ⟨n, body, rest, hscan, hn, hword, hrest⟩ := hreads
      refine ⟨h.after, fun _ => ⟨e, es, heq, ?_⟩, fun hl => by cases hl⟩
      refine .request rfl (target_eq hn ?_) ?_ hrest
      · simp [hscan]
      · simpa [hscan] using hword
  | request hpc =>
      obtain ⟨e, es, heq, hturn⟩ := h.turn (by rw [hpc]; rfl)
      have hinv := hturn.inv
      rw [hpc] at hinv
      obtain ⟨htarget, rest, hword, hrest⟩ := hinv
      obtain ⟨hread, hpipe⟩ := hb.waits_of_request hpc e.width
      refine ⟨h.after, fun _ => ⟨e, es, heq, .served rfl ?_ ?_⟩, fun hl => by cases hl⟩
      · simp [State.send, htarget, Reader.backlog, hread, ReaderPc.busy]
      · simp only [InReader, State.send, htarget, State.setReader_self, hread]
        exact ⟨rest, hword, hrest⟩
  | @reply word rest hpc hboth =>
      obtain ⟨e, es, heq, hturn⟩ := h.turn (by rw [hpc]; rfl)
      have hinv := hturn.inv
      rw [hpc] at hinv
      refine ⟨h.after, fun _ => ⟨e, es, heq, ?_⟩, fun hl => by cases hl⟩
      rcases hinv with ⟨hback, _⟩ | ⟨hsent, hreads⟩
      · have hnone := hb.backlog_of_reply hpc hboth e.width
        omega
      · rw [hboth] at hsent
        obtain ⟨rfl, rfl⟩ := List.cons.inj hsent
        exact .run rfl rfl hreads
  | stale hpc hexited =>
      exact absurd (hexited .w32) (hb.not_exited (by rw [hpc]; rfl))
  | @ran polygons done hpc hrun =>
      obtain ⟨e, es, heq, hturn⟩ := h.turn (by rw [hpc]; rfl)
      have hinv := hturn.inv
      rw [hpc] at hinv
      obtain ⟨hword, hreads⟩ := hinv
      obtain ⟨polygons', hrun', hafter⟩ := h.after.runOnPolygon e.word
      rw [hword, hrun'] at hrun
      obtain ⟨rfl, rfl⟩ := Prod.mk.inj (Option.some.inj hrun)
      rw [← wordsOf_take_succ heq] at hafter
      have hlast := last_iff honly heq
      have hdrop := drop_succ heq
      refine ⟨hafter, ?_, ?_⟩
      · intro hleft
        cases hbit : bit e.word 0 with
        | true => simp [hbit, MainPc.left] at hleft
        | false =>
            cases es with
            | nil => rw [hlast.mpr rfl] at hbit; cases hbit
            | cons e' es' => exact ⟨e', es', hdrop, .scan rfl hreads⟩
      · intro hleft
        cases hbit : bit e.word 0 with
        | false => simp [hbit, MainPc.left] at hleft
        | true =>
            have hlen := congrArg List.length heq
            rw [hlast.mp hbit] at hlen
            simp only [List.length_drop, List.length_cons, List.length_nil] at hlen
            show st.processed + 1 = entries.length
            omega
  | stop hpc => exact ⟨h.after, fun hl => (by cases hl), fun _ => h.ended (by rw [hpc]; rfl)⟩
  | close32 hpc => exact ⟨h.after, fun hl => (by cases hl), fun _ => h.ended (by rw [hpc]; rfl)⟩
  | close64 hpc => exact ⟨h.after, fun hl => (by cases hl), fun _ => h.ended (by rw [hpc]; rfl)⟩
  | @wait n hpc hlt =>
      refine ⟨h.after, ?_, fun _ => h.ended (by rw [hpc]; rfl)⟩
      intro hleft
      by_cases hn : n = 0 <;> simp [hn, MainPc.left] at hleft

/-! ## Steps of a reader -/

/-- A step of the reader that has the word: it gets nearer to the reply pipe. -/
theorem ReaderStep.serves (hs : ReaderStep st e.width st') (hmain : st.main = .read)
    (hboth : st.fdBoth = []) (hback : 1 ≤ (st.reader e.width).backlog) (hin : InReader st e es) :
    Turn st' e es := by
  have hmain' : st'.main = .read := hs.frame.1.trans hmain
  cases hs with
  | @signal c pipe hpc hpipe =>
      simp only [InReader, hpc] at hin
      apply Turn.served hmain'
      · simp [Reader.backlog, ReaderPc.busy]
      · simp only [InReader, State.setReader_self]
        exact hin
  | closed hpc hpipe hclosed =>
      rw [Reader.backlog, hpc, hpipe] at hback
      cases hback
  | low hk hpc =>
      simp only [InReader, hpc] at hin
      simp only [ReadsWord, hk] at hin
      obtain ⟨rest, ⟨high, hlow, hhigh⟩, hrest⟩ := hin
      apply Turn.served hmain'
      · simp [Reader.backlog, Reader.storeLow, ReaderPc.busy]
      · simp only [InReader, State.scanf_self, Reader.storeLow, State.scanf_stdin, hlow]
        exact ⟨hk, rfl, rest, hhigh, hrest⟩
  | high hk hpc =>
      simp only [InReader, hpc] at hin
      obtain ⟨_, hlow, rest, hhigh, hrest⟩ := hin
      apply Turn.served hmain'
      · simp [Reader.backlog, Reader.storeHigh, ReaderPc.busy]
      · simp only [InReader, State.scanf_self, Reader.storeHigh, State.scanf_stdin, hhigh, hlow]
        exact ⟨halves e.word, hrest⟩
  | word hk hpc =>
      simp only [InReader, hpc] at hin
      simp only [ReadsWord, hk] at hin
      obtain ⟨rest, hword, hrest⟩ := hin
      apply Turn.served hmain'
      · simp [Reader.backlog, Reader.storeWord, ReaderPc.busy]
      · simp only [InReader, State.scanf_self, Reader.storeWord, State.scanf_stdin, hword]
        exact ⟨rfl, hrest⟩
  | write hpc =>
      simp only [InReader, hpc] at hin
      refine .sent hmain' ?_ hin.2
      simp [State.writeReply, hboth, hin.1]

theorem Lockstep.reader_step (h : Lockstep entries st) (hb : Balance st)
    (hs : ReaderStep st k st') : Lockstep entries st' := by
  obtain ⟨hmain, hpolygons, hproc⟩ := hs.frame
  refine ⟨?_, ?_, ?_⟩
  · rw [hpolygons, hproc]
    exact h.after
  · intro hleft
    rw [hmain] at hleft
    obtain ⟨e, es, heq, hturn⟩ := h.turn hleft
    rw [hproc]
    refine ⟨e, es, heq, ?_⟩
    obtain ⟨hread, hboth, hself⟩ := hb.awaited hs hleft
    have hinv := hturn.inv
    rw [hread] at hinv
    rcases hinv with ⟨hback, hin⟩ | ⟨hsent, _⟩
    · obtain rfl := hself _ hback
      exact hs.serves hread hboth hback hin
    · rw [hboth] at hsent
      cases hsent
  · intro hleft
    rw [hproc]
    exact h.ended (hmain ▸ hleft)

end OsSolutions.Readers
