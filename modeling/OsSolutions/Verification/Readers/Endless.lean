import OsSolutions.Verification.Polygon.Endless
import OsSolutions.Verification.Readers.Passes

/-! # When `runMainLoop` ends

While `main` is in its loop some process can move, and every step gets the pass on. So the loop
ends exactly when `main` obtains a word with bit 0 set in some pass. -/

namespace OsSolutions.Streams

open OsSolutions.Polygon Readers Transition

variable {g : Stack} {f₀ : Feed} {s s' : Session} {k : Width} {n : ℕ} {a : Act}
  {above : ℕ → Text}

/-! ## What the steps leave alone -/

theorem fill_last (s : Session) : s.fill.get 16 = s.polygonBuffer.get 16 := by
  have hlen : (s.replies.take 16).length ≤ 16 := by simp
  have hget : (readReply s.replies s.polygonBuffer)[16]? = some (s.polygonBuffer.get 16) := by
    rw [readReply, List.getElem?_append_right hlen, List.getElem?_drop,
      Nat.add_sub_cancel' hlen, List.getElem?_eq_getElem (by simp)]
    rfl
  have hfill : s.fill.toList[16]? = some (s.polygonBuffer.get 16) := hget
  rw [List.getElem?_eq_getElem (by simp)] at hfill
  exact Option.some.inj hfill

/-- A step other than the end of a pass. -/
structure Kept (s s' : Session) : Prop where
  polygons : s'.polygons = s.polygons
  processed : s'.processed = s.processed
  last : s'.polygonBuffer.get 16 = s.polygonBuffer.get 16
  left : s.main.left = true → s'.main.left = true

theorem kept_of_reader (hs : s.step above (.reader k) = some s') : Kept s s' := by
  have hsignal : ∀ {st : State}, s.readSignal k = some st → Kept s { s with toState := st } := by
    intro st h
    unfold State.readSignal at h
    split at h
    · obtain rfl := Option.some.inj h
      exact ⟨rfl, rfl, rfl, id⟩
    · split at h
      · cases h
      · obtain rfl := Option.some.inj h
        exact ⟨rfl, rfl, rfl, id⟩
  cases k with
  | w32 =>
      simp only [Session.step, Session.reader32] at hs
      split at hs
      · obtain ⟨st, hst, rfl⟩ := Option.map_eq_some_iff.mp hs
        exact hsignal hst
      · obtain rfl := Option.some.inj hs
        exact ⟨rfl, rfl, rfl, id⟩
      · obtain rfl := Option.some.inj hs
        exact ⟨rfl, rfl, rfl, id⟩
      · obtain rfl := Option.some.inj hs
        exact ⟨rfl, rfl, rfl, id⟩
      · cases hs
  | w64 =>
      simp only [Session.step, Session.reader64] at hs
      split at hs
      · obtain ⟨st, hst, rfl⟩ := Option.map_eq_some_iff.mp hs
        exact hsignal hst
      · obtain rfl := Option.some.inj hs
        exact ⟨rfl, rfl, rfl, id⟩
      · cases hs
      · obtain rfl := Option.some.inj hs
        exact ⟨rfl, rfl, rfl, id⟩
      · cases hs

theorem kept_of_main (hrun : s.main ≠ .run) (hs : s.step above .main = some s') : Kept s s' := by
  simp only [Session.step, Session.runMain] at hs
  cases hpc : s.main with
  | run => exact absurd hpc hrun
  | scan =>
      simp only [hpc, Option.some.injEq] at hs
      subst hs
      exact ⟨rfl, rfl, rfl, fun hleft => by rw [hpc] at hleft; cases hleft⟩
  | read =>
      simp only [hpc] at hs
      split at hs
      · cases hs
      · obtain rfl := Option.some.inj hs
        exact ⟨rfl, rfl, fill_last s, fun hleft => by rw [hpc] at hleft; cases hleft⟩
  | wait reaped =>
      simp only [hpc, State.runMain, Option.map_eq_some_iff] at hs
      obtain ⟨st, hst, rfl⟩ := hs
      obtain ⟨_, hst⟩ := Option.ite_none_right_eq_some.mp hst
      obtain rfl := Option.some.inj hst
      refine ⟨rfl, rfl, rfl, fun _ => ?_⟩
      dsimp only
      split
      · rfl
      · rfl
  | request | stop | close32 | close64 =>
      simp only [hpc, State.runMain, Option.map_some, Option.some.injEq] at hs
      subst hs
      exact ⟨rfl, rfl, rfl, fun hleft => by first | rfl | (rw [hpc] at hleft; cases hleft)⟩
  | exited =>
      simp only [hpc, State.runMain, Option.map_none, reduceCtorEq] at hs

/-- The step at the end of a pass. -/
theorem step_ran {polygons : Polygons} {done : Bool} (hmain : s.main = .run)
    (hran : s.polygons.runOnPolygon s.nextPolygon = some (polygons, done)) :
    s.step above .main = some { s with
      polygons, processed := s.processed + 1, main := if done then .stop else .scan } := by
  simp only [Session.step, Session.runMain, hmain, State.runMain, hran, Option.map_some]

/-! ## The invariant -/

/-- The passes so far have read the input from `f₀` on, and `main` has left its loop exactly if
bit 0 is set in what it has obtained in the last one. -/
structure Passing (g : Stack) (f₀ : Feed) (s : Session) : Prop where
  after : ∃ ws, s.polygons.After ws
  byte : s.polygonBuffer.get 16 = g.polygonBuffer.get 16
  stage : s.main.left = false →
    ∃ n, Stage (Feed.pass^[s.processed] f₀) (g.got f₀ s.processed) s n
  last : ∀ k < s.processed, bit (g.got f₀ k) 0 = true ↔
    s.main.left = true ∧ k + 1 = s.processed
  ended : s.main.left = true → 0 < s.processed

def startFeed (delim : Option UInt8) (stdin : Text) (g : Stack) : Feed :=
  (start delim stdin g).feed

theorem passing_start (delim : Option UInt8) (stdin : Text) (g : Stack) :
    Passing g (startFeed delim stdin g) (start delim stdin g) where
  after := ⟨[], Polygons.after_empty⟩
  byte := rfl
  stage _ := ⟨0, .scan rfl (fun _ => ⟨rfl, rfl, rfl⟩) rfl rfl⟩
  last k hk := absurd hk (Nat.not_lt_zero k)
  ended h := by cases h

/-- What `main` makes of the reply in this pass. -/
theorem Passing.handOff_eq (h : Passing g f₀ s) :
    handOff (Feed.pass^[s.processed] f₀).pass.word s.polygonBuffer (g.above s.processed) =
      some (g.got f₀ s.processed) := by
  rw [handOff_eq_numeral, behind, h.byte, Stack.got, wordAt, Function.iterate_succ_apply']
  rfl

/-- A step inside of a pass, or behind the loop. -/
theorem Passing.moves_on (h : Passing g f₀ s) (hk : Kept s s')
    (hstage : ∀ n, Stage (Feed.pass^[s.processed] f₀) (g.got f₀ s.processed) s n →
      ∃ m, n < m ∧ Stage (Feed.pass^[s.processed] f₀) (g.got f₀ s.processed) s' m) :
    Passing g f₀ s' := by
  have hleft : s'.main.left = s.main.left := by
    cases hl : s.main.left with
    | true => exact hk.left hl
    | false =>
        obtain ⟨n, hn⟩ := h.stage hl
        obtain ⟨m, _, hm⟩ := hstage n hn
        exact hm.left
  refine ⟨by rw [hk.polygons]; exact h.after, hk.last.trans h.byte, ?_, ?_, ?_⟩
  · intro hl
    rw [hleft] at hl
    obtain ⟨n, hn⟩ := h.stage hl
    obtain ⟨m, _, hm⟩ := hstage n hn
    rw [hk.processed]
    exact ⟨m, hm⟩
  · rw [hk.processed, hleft]
    exact h.last
  · rw [hk.processed, hleft]
    exact h.ended

theorem Stage.le {f : Feed} {got : UInt64} (h : Stage f got s n) : n ≤ 7 := by
  cases h <;> decide

/-- At the end of a pass. -/
theorem Stage.of_run {f : Feed} {got : UInt64} (h : Stage f got s n) (hmain : s.main = .run) :
    (∀ k, At (s.reader k) .read []) ∧ s.replies = [] ∧ s.feed = f.pass ∧
      s.nextPolygon = got := by
  cases h with
  | run _ hall hreplies hfeed hgot => exact ⟨hall, hreplies, hfeed, hgot⟩
  | scan hpc | request hpc | asked hpc | low hpc | high hpc | write hpc | replied hpc =>
      rw [hmain] at hpc
      cases hpc

theorem Stage.ne_run {f : Feed} {got : UInt64} (h : Stage f got s n) (hn : n < 7) :
    s.main ≠ .run := by
  cases h with
  | run => exact absurd hn (Nat.lt_irrefl 7)
  | scan hpc | request hpc | asked hpc | low hpc | high hpc | write hpc | replied hpc =>
      rw [hpc]
      decide

/-- The end of a pass: what `main` has obtained decides. -/
theorem Passing.ran (above : ℕ → Text) (h : Passing g f₀ s) (hmain : s.main = .run) :
    ∃ s', s.step above .main = some s' ∧ Passing g f₀ s' ∧ s'.processed = s.processed + 1 ∧
      s'.main.left = bit (g.got f₀ s.processed) 0 := by
  have hleft : s.main.left = false := by rw [hmain]; rfl
  obtain ⟨n, hn⟩ := h.stage hleft
  obtain ⟨hall, hreplies, hfeed, hgot⟩ := hn.of_run hmain
  obtain ⟨ws, hafter⟩ := h.after
  obtain ⟨polygons, hran, hafter'⟩ := hafter.runOnPolygon s.nextPolygon
  rw [hgot] at hran
  have hend : (if bit (g.got f₀ s.processed) 0 then MainPc.stop else MainPc.scan).left =
      bit (g.got f₀ s.processed) 0 := by
    cases bit (g.got f₀ s.processed) 0
    · rfl
    · rfl
  refine ⟨_, step_ran hmain (hgot ▸ hran), ⟨⟨_, hafter'⟩, h.byte, ?_, ?_, ?_⟩, rfl, hend⟩
  · intro hl
    rw [show (if bit (g.got f₀ s.processed) 0 then MainPc.stop else MainPc.scan).left = false
      from hl] at hend
    refine ⟨0, .scan ?_ hall hreplies ?_⟩
    · change (if bit (g.got f₀ s.processed) 0 then MainPc.stop else MainPc.scan) = .scan
      rw [← hend]
      rfl
    · exact hfeed.trans (Function.iterate_succ_apply' _ _ _).symm
  · intro k hk
    change bit (g.got f₀ k) 0 = true ↔
      (if bit (g.got f₀ s.processed) 0 then MainPc.stop else MainPc.scan).left = true ∧
        k + 1 = s.processed + 1
    rw [hend]
    rcases Nat.lt_or_eq_of_le (Nat.le_of_lt_succ hk) with hlt | rfl
    · constructor
      · intro hset
        rw [((h.last k hlt).mp hset).1] at hleft
        cases hleft
      · rintro ⟨_, heq⟩
        exact absurd (Nat.succ.inj heq) (Nat.ne_of_lt hlt)
    · exact (and_iff_left rfl).symm
  · exact fun _ => Nat.succ_pos _

theorem Passing.step (h : Passing g f₀ s) (hs : s.step g.above a = some s') :
    Passing g f₀ s' := by
  cases a with
  | main =>
      by_cases hmain : s.main = .run
      · obtain ⟨s₁, hs₁, h₁, _⟩ := h.ran g.above hmain
        obtain rfl : s₁ = s' := Option.some.inj (hs₁.symm.trans hs)
        exact h₁
      · refine h.moves_on (kept_of_main hmain hs) fun n hn => ?_
        rcases Nat.lt_or_eq_of_le hn.le with hlt | rfl
        · exact hn.main_step hlt h.handOff_eq hs
        · cases hn with
          | run hpc => exact absurd hpc hmain
  | reader k => exact h.moves_on (kept_of_reader hs) fun n hn => hn.reader_step hs

theorem passing_of_run {delim : Option UInt8} {stdin : Text} {acts : List Act}
    (hrun : run (Session.step g.above) (start delim stdin g) acts = some s) :
    Passing g (startFeed delim stdin g) s :=
  (reachable_of_run hrun).invariant (passing_start delim stdin g) fun _ _ _ h _ hs => h.step hs

/-! ## Every pass comes to its end -/

theorem Passing.exists_end (h : Passing g f₀ s) (hleft : s.main.left = false) :
    ∃ acts s', run (Session.step g.above) s acts = some s' ∧ Passing g f₀ s' ∧
      s'.processed = s.processed + 1 ∧ s'.main.left = bit (g.got f₀ s.processed) 0 := by
  obtain ⟨n, hn⟩ := h.stage hleft
  -- the number of the step grows up to the end of the pass
  obtain ⟨d, hd⟩ : ∃ d, n + d = 7 := ⟨7 - n, Nat.add_sub_cancel' hn.le⟩
  induction d using Nat.strong_induction_on generalizing n s with
  | _ d ih =>
      rcases Nat.lt_or_eq_of_le hn.le with hlt | rfl
      · obtain ⟨a, ha⟩ := hn.moves g.above hlt
        obtain ⟨s₁, hs₁⟩ := Option.isSome_iff_exists.mp ha
        have h₁ := h.step hs₁
        obtain ⟨hkept, m, hnm, hm⟩ : Kept s s₁ ∧ ∃ m, n < m ∧
            Stage (Feed.pass^[s.processed] f₀) (g.got f₀ s.processed) s₁ m := by
          cases a with
          | main => exact ⟨kept_of_main (hn.ne_run hlt) hs₁, hn.main_step hlt h.handOff_eq hs₁⟩
          | reader k => exact ⟨kept_of_reader hs₁, hn.reader_step hs₁⟩
        have hle := hm.le
        rw [← hkept.processed] at hm
        obtain ⟨acts, s', hrun, h', hproc, hend⟩ :=
          ih (7 - m) (by omega) h₁ hm.left m hm (Nat.add_sub_cancel' hle)
        rw [hkept.processed] at hproc hend
        exact ⟨a :: acts, s', by rw [run_cons, hs₁]; exact hrun, h', hproc, hend⟩
      · cases hn with
        | run hmain =>
            obtain ⟨s', hs', h', hproc, hend⟩ := h.ran g.above hmain
            exact ⟨[.main], s', by rw [run_cons, hs']; rfl, h', hproc, hend⟩

/-! ## Every input -/

/-- `main` makes a bounded number of passes, whatever the schedule is. -/
def MainLoopStops (delim : Option UInt8) (stdin : Text) (g : Stack) : Prop :=
  ∃ n, ∀ acts s, run (Session.step g.above) (start delim stdin g) acts = some s →
    s.processed ≤ n

/-- Without a word that ends it the loop goes on for as long as one likes. -/
theorem exists_run {delim : Option UInt8} {stdin : Text}
    (hlive : ∀ k, bit (g.got (startFeed delim stdin g) k) 0 = false) (n : ℕ) :
    ∃ acts s, run (Session.step g.above) (start delim stdin g) acts = some s ∧
      s.main.left = false ∧ s.processed = n := by
  induction n with
  | zero => exact ⟨[], _, rfl, rfl, rfl⟩
  | succ n ih =>
      obtain ⟨acts, s, hrun, hleft, hproc⟩ := ih
      obtain ⟨acts', s', hrun', _, hproc', hend⟩ := (passing_of_run hrun).exists_end hleft
      refine ⟨acts ++ acts', s', by rw [run_append, hrun]; exact hrun', ?_, by rw [hproc', hproc]⟩
      rw [hend]
      exact hlive _

theorem mainLoopStops_iff_got (delim : Option UInt8) (stdin : Text) (g : Stack) :
    MainLoopStops delim stdin g ↔ ∃ k, bit (g.got (startFeed delim stdin g) k) 0 = true := by
  constructor
  · rintro ⟨n, hn⟩
    by_contra hnone
    obtain ⟨acts, s, hrun, _, hproc⟩ :=
      exists_run (fun k => Bool.eq_false_iff.mpr fun hk => hnone ⟨k, hk⟩) (n + 1)
    have hle := hn acts s hrun
    omega
  · rintro ⟨k, hk⟩
    refine ⟨k + 1, fun acts s hrun => ?_⟩
    by_contra hmore
    have hlast := ((passing_of_run hrun).last k (by omega)).mp hk
    omega

/-- The last of the digits is odd. -/
def EndsOdd (digits : Text) : Prop := ∃ d ∈ digits.getLast?, digitValue d % 2 = 1

instance (digits : Text) : Decidable (EndsOdd digits) :=
  inferInstanceAs (Decidable (∃ d ∈ digits.getLast?, digitValue d % 2 = 1))

/-- Bit 0 of a number is in its last digit. -/
theorem odd_numeral_iff (digits : Text) : numeral 16 digits % 2 = 1 ↔ EndsOdd digits := by
  induction digits using List.reverseRecOn with
  | nil => simp [numeral, EndsOdd]
  | append_singleton ds d =>
      have hone : numeral 16 [d] = digitValue d := by simp [numeral]
      rw [numeral_append, hone, EndsOdd]
      simp only [List.length_singleton, List.getLast?_concat, Option.mem_def, Option.some.injEq,
        exists_eq_left']
      omega

theorem bit_got (g : Stack) (f : Feed) (k : ℕ) : bit (g.got f k) 0 = true ↔
    EndsOdd (digitsRead (wordAt f k) (behind g.polygonBuffer (g.above k))) := by
  rw [← odd_numeral_iff]
  have hlt := numeral_digitsRead_lt (wordAt f k) (behind g.polygonBuffer (g.above k))
  simp [bit, Stack.got, UInt64.toNat_ofNat_of_lt' hlt]

/-- The loop ends exactly when in some pass the last digit that `sscanf` reads is odd. The digits
are those of the word that the reader has made of what its calls of `scanf` have stored, and
those that follow in the memory of `main` as far as the scan goes on. -/
theorem mainLoopStops_iff (delim : Option UInt8) (stdin : Text) (g : Stack) :
    MainLoopStops delim stdin g ↔ ∃ k, EndsOdd
      (digitsRead (wordAt (startFeed delim stdin g) k) (behind g.polygonBuffer (g.above k))) := by
  rw [mainLoopStops_iff_got]
  simp only [bit_got]

/-- Behind as many passes as the input is large the words repeat. -/
theorem wordAt_eq (f : Feed) {k : ℕ} (hk : f.input.size ≤ k + 1) :
    wordAt f k = (Feed.pass^[f.input.size] f).word :=
  congrArg Feed.word (Feed.pass_usesUp.iterate_eq f (Nat.le_refl _) hk)

/-- Where `main` finds the same memory behind its buffer in every pass, the first passes decide. -/
theorem mainLoopStops_iff_first (delim : Option UInt8) (stdin : Text)
    (hsame : ∀ k, g.above k = g.above 0) :
    MainLoopStops delim stdin g ↔ ∃ k ≤ (startFeed delim stdin g).input.size, EndsOdd
      (digitsRead (wordAt (startFeed delim stdin g) k) (behind g.polygonBuffer (g.above 0))) := by
  rw [mainLoopStops_iff]
  simp only [hsame]
  constructor
  · rintro ⟨k, hk⟩
    rcases le_total k (startFeed delim stdin g).input.size with hle | hge
    · exact ⟨k, hle, hk⟩
    · rw [wordAt_eq _ (Nat.le_succ_of_le hge),
        ← wordAt_eq _ (Nat.le_succ (startFeed delim stdin g).input.size)] at hk
      exact ⟨_, le_rfl, hk⟩
  · rintro ⟨k, _, hk⟩
    exact ⟨k, hk⟩

/-- A pass that asks `reader64`. -/
theorem Feed.pass_eq {f : Feed} {number : Option Int32} {value : Option UInt64}
    {text₁ text₂ : Text} (hscan : scanInt (f.input.seen .main) = (number, text₁))
    (hnumber : number.getD f.readerToRun ≠ 32)
    (hread : scanHex16 ((f.input.giveBack .main text₁).seen (.reader .w64)) = (value, text₂)) :
    f.pass = ⟨(f.input.giveBack .main text₁).giveBack (.reader .w64) text₂,
      number.getD f.readerToRun,
      Function.update f.cells .w64 (value.getD (f.cells .w64).1, (f.cells .w64).2)⟩ := by
  have hchoose : f.choose =
      ⟨f.input.giveBack .main text₁, number.getD f.readerToRun, f.cells⟩ := by
    simp only [Feed.choose, Input.scanf, hscan]
  have htarget : f.choose.target = .w64 := by
    rw [hchoose, Feed.target, if_neg hnumber]
  rw [Feed.pass, high_of_w64 (by rw [Feed.low_target, htarget]), Feed.low, htarget, hchoose]
  simp only [Input.scanf, scanOf, hread]

/-- `reader64` has read its last word, a `2`. -/
structure Spent (f : Feed) : Prop where
  number : f.readerToRun = 64
  word : (f.cells .w64).1 = 2
  rest : f.input.rest = []
  main : f.input.pushed .main = some 10 ∨ f.input.pushed .main = none
  reader : f.input.pushed (.reader .w64) = none

/-- From then on every `scanf` stores nothing. -/
theorem Spent.pass {f : Feed} (h : Spent f) : Spent f.pass := by
  have hscan : scanInt (f.input.seen .main) = (none, []) := by
    rw [Input.seen, h.rest]
    rcases h.main with hmain | hmain
    · rw [hmain]
      decide +kernel
    · rw [hmain]
      decide +kernel
  have hseen : (f.input.giveBack .main []).seen (.reader .w64) = [] := by
    simp [Input.seen, Input.giveBack, h.reader]
  have hread : scanHex16 [] = (none, []) := by decide +kernel
  rw [Feed.pass_eq hscan (by simp [h.number]) ((congrArg scanHex16 hseen).trans hread)]
  exact ⟨h.number, h.word, rfl, .inr rfl, rfl⟩

end OsSolutions.Streams
