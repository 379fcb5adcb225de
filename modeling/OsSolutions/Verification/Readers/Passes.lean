import OsSolutions.Model.StreamMachine
import OsSolutions.Transition.Exhaustion
import OsSolutions.Transition.Run
import OsSolutions.Verification.Polygon.Meaning
import OsSolutions.Verification.Readers.Handoff
import OsSolutions.Verification.Text.Progress

/-! # The passes of `runMainLoop` on any input

While `main` is in its loop only one of the three processes can move. So the passes read the
input one after the other whatever the schedule is, and each runs on what `main` makes of the
reply, whether the calls of `scanf` have stored anything or not. -/

namespace OsSolutions.Streams

open OsSolutions.Polygon Readers Transition

/-! ## What a scan uses up -/

def total (f : Act → ℕ) : ℕ := f .main + f (.reader .w32) + f (.reader .w64)

theorem total_update (f : Act → ℕ) (p : Act) (v : ℕ) :
    total (Function.update f p v) + f p = total f + v := by
  cases p with
  | main =>
      simp only [total, Function.update_self, ne_eq, reduceCtorEq, not_false_eq_true,
        Function.update_of_ne]
      omega
  | reader k =>
      cases k
      · simp only [total, Function.update_self, ne_eq, reduceCtorEq, not_false_eq_true,
          Function.update_of_ne, Act.reader.injEq]
        omega
      · simp only [total, Function.update_self, ne_eq, reduceCtorEq, not_false_eq_true,
          Function.update_of_ne, Act.reader.injEq]
        omega

namespace Input

/-- A character that is given back counts half. -/
def size (i : Input) : ℕ := 2 * i.rest.length + total fun q => (i.pushed q).toList.length

theorem size_giveBack (i : Input) (p : Act) (text : Text) :
    (i.giveBack p text).size + (i.seen p).length + i.rest.length =
      2 * text.tail.length + text.head?.toList.length + i.size := by
  have htotal := total_update (fun q => (i.pushed q).toList.length) p text.head?.toList.length
  have hupdate : (fun q => (Function.update i.pushed p text.head? q).toList.length) =
      Function.update (fun q => (i.pushed q).toList.length) p text.head?.toList.length := by
    funext q
    by_cases hq : q = p
    · subst hq
      simp
    · simp [hq]
  simp only [size, giveBack, seen, hupdate, List.length_append]
  omega

theorem giveBack_seen (i : Input) (p : Act) :
    (i.giveBack p (i.seen p)).size < i.size ∨ i.giveBack p (i.seen p) = i := by
  have hsize := i.size_giveBack p (i.seen p)
  obtain ⟨rest, pushed⟩ := i
  cases hpushed : pushed p with
  | some c =>
      right
      simp only [giveBack, seen, hpushed, Option.toList_some, List.singleton_append,
        List.tail_cons, List.head?_cons]
      rw [← hpushed, Function.update_eq_self]
  | none =>
      cases rest with
      | nil =>
          right
          simp only [giveBack, seen, hpushed, Option.toList_none, List.nil_append, List.tail_nil,
            List.head?_nil]
          rw [← hpushed, Function.update_eq_self]
      | cons c rest =>
          -- the character is given back by a process that had none
          left
          simp only [seen, hpushed, Option.toList_none, List.nil_append, List.tail_cons,
            List.head?_cons, Option.toList_some, List.length_cons, List.length_nil]
            at hsize ⊢
          omega

/-- A scan that leaves the input as it is has stored nothing. -/
theorem scanf_moves {α : Type*} {scan : Text → Option α × Text}
    (hscan : ∀ s, (scan s).2.length < s.length ∨ scan s = (none, s)) (i : Input) (p : Act) :
    (i.scanf p scan).2.size < i.size ∨ i.scanf p scan = (none, i) := by
  rcases hscan (i.seen p) with hlt | heq
  · left
    have hsize := i.size_giveBack p (scan (i.seen p)).2
    have hcount : 2 * (scan (i.seen p)).2.tail.length +
        (scan (i.seen p)).2.head?.toList.length ≤ 2 * (scan (i.seen p)).2.length := by
      cases (scan (i.seen p)).2 <;> simp
    have hseen : (i.seen p).length ≤ i.rest.length + 1 := by
      rw [seen, List.length_append]
      cases i.pushed p <;> simp [Nat.add_comm]
    change (i.giveBack p (scan (i.seen p)).2).size < i.size
    omega
  · have hvalue : i.scanf p scan = (none, i.giveBack p (i.seen p)) := by simp only [scanf, heq]
    rw [hvalue]
    exact (i.giveBack_seen p).imp id fun h => congrArg (Prod.mk none) h

end Input

/-! ## What a pass reads -/

/-- The first or only `scanf` of a reader. -/
def scanOf : Width → Text → Option UInt64 × Text
  | .w32 => scanLong
  | .w64 => scanHex16

/-- The input, and the variables that keep their values from pass to pass: `readerToRun`, and
for each reader those that its `scanf` calls store into, the low one first. -/
structure Feed where
  input : Input
  readerToRun : Int32
  cells : Width → UInt64 × UInt64

namespace Feed

/-- The `scanf` of `runMainLoop`. -/
def choose (f : Feed) : Feed :=
  let (value, input) := f.input.scanf .main scanInt
  { f with input, readerToRun := value.getD f.readerToRun }

def target (f : Feed) : Width := if f.readerToRun = 32 then .w32 else .w64

def low (f : Feed) : Feed :=
  let k := f.target
  let (value, input) := f.input.scanf (.reader k) (scanOf k)
  { f with
    input, cells := Function.update f.cells k (value.getD (f.cells k).1, (f.cells k).2) }

/-- The second `scanf` of `reader32`. -/
def high (f : Feed) : Feed :=
  match f.target with
  | .w32 =>
      let (value, input) := f.input.scanf (.reader .w32) scanLong
      { f with
        input
        cells := Function.update f.cells .w32
          ((f.cells .w32).1, value.getD (f.cells .w32).2) }
  | .w64 => f

def pass (f : Feed) : Feed := f.choose.low.high

/-- The word that the reader makes of its variables. -/
def word (f : Feed) : UInt64 :=
  match f.target with
  | .w32 => ((f.cells .w32).2 <<< 32) + (f.cells .w32).1
  | .w64 => (f.cells .w64).1

theorem choose_usesUp : UsesUp choose fun f => f.input.size := by
  intro f
  rcases f.input.scanf_moves scanInt_moves .main with hlt | heq
  · exact .inl hlt
  · exact .inr (by simp [choose, heq])

theorem scanOf_moves (k : Width) (s : Text) :
    (scanOf k s).2.length < s.length ∨ scanOf k s = (none, s) := by
  cases k with
  | w32 => exact scanHex_moves _ _
  | w64 => exact scanHex_moves _ _

theorem low_usesUp : UsesUp low fun f => f.input.size := by
  intro f
  rcases f.input.scanf_moves (scanOf_moves f.target) (.reader f.target) with hlt | heq
  · exact .inl hlt
  · exact .inr (by simp [low, heq])

theorem high_usesUp : UsesUp high fun f => f.input.size := by
  intro f
  unfold high
  cases f.target with
  | w32 =>
      rcases f.input.scanf_moves (scanOf_moves .w32) (.reader .w32) with hlt | heq
      · exact .inl hlt
      · rw [scanOf] at heq
        exact .inr (by simp [heq])
  | w64 => exact .inr rfl

theorem pass_usesUp : UsesUp pass fun f => f.input.size :=
  high_usesUp.comp (low_usesUp.comp choose_usesUp)

@[simp] theorem low_target (f : Feed) : f.low.target = f.target := rfl

@[simp] theorem high_target (f : Feed) : f.high.target = f.target := by
  unfold high
  split
  · rfl
  · rfl

end Feed

/-- The word that a reader sends in a pass. -/
def wordAt (f : Feed) (k : ℕ) : UInt64 := (Feed.pass^[k + 1] f).word

/-- What `main` obtains in a pass: the number that the digits of the word make up, and those
behind the 16 characters as far as the scan goes on. -/
def Stack.got (g : Stack) (f : Feed) (k : ℕ) : UInt64 :=
  UInt64.ofNat (numeral 16 (digitsRead (wordAt f k) (behind g.polygonBuffer (g.above k))))

/-! ## The place of a pass -/

variable {g : Stack} {f f₀ : Feed} {s s' : Session} {k : Width} {n : ℕ}

/-- What a reader stores into. -/
def cellsOf : Width → Reader → UInt64 × UInt64
  | .w32, r => (r.part0, r.part1)
  | .w64, r => (r.nextPolygon, 0)

def Session.feed (s : Session) : Feed := ⟨s.input, s.readerToRun, fun k => cellsOf k (s.reader k)⟩

/-- A reader in the loop has the pipe open. -/
structure At (r : Reader) (pc : ReaderPc) (pipe : Text) : Prop where
  pc_eq : r.pc = pc
  pipe_eq : r.pipe = pipe
  open_eq : r.isOpen = true

/-- Only one reader has been asked. -/
def Others (s : Session) (k : Width) : Prop := ∀ j, j ≠ k → At (s.reader j) .read []

/-- The steps of the pass that starts with `f`, numbered. -/
inductive Stage (f : Feed) (got : UInt64) (s : Session) : ℕ → Prop
  | scan : s.main = .scan → (∀ k, At (s.reader k) .read []) → s.replies = [] → s.feed = f →
      Stage f got s 0
  | request : s.main = .request → (∀ k, At (s.reader k) .read []) → s.replies = [] →
      s.feed = f.choose → Stage f got s 1
  | asked : s.main = .read → Others s f.choose.target →
      At (s.reader f.choose.target) .read [49] → s.replies = [] → s.feed = f.choose →
      Stage f got s 2
  | low : s.main = .read → Others s f.choose.target →
      At (s.reader f.choose.target) .scan [] → s.replies = [] → s.feed = f.choose →
      Stage f got s 3
  | high : s.main = .read → Others s f.choose.target → f.choose.target = .w32 →
      At (s.reader f.choose.target) .scanHigh [] → s.replies = [] → s.feed = f.choose.low →
      Stage f got s 4
  | write : s.main = .read → Others s f.choose.target →
      At (s.reader f.choose.target) .write [] → s.replies = [] → s.feed = f.pass →
      (s.reader f.choose.target).nextPolygon = f.pass.word → Stage f got s 5
  | replied : s.main = .read → (∀ k, At (s.reader k) .read []) → s.replies = reply f.pass.word →
      s.feed = f.pass → Stage f got s 6
  | run : s.main = .run → (∀ k, At (s.reader k) .read []) → s.replies = [] → s.feed = f.pass →
      s.nextPolygon = got → Stage f got s 7

/-! ## Steps of a reader -/

/-- A reader that has not been asked cannot move. -/
theorem stuck_of_idle {above : ℕ → Text} (h : At (s.reader k) .read []) :
    s.step above (.reader k) = none := by
  have hsignal : s.readSignal k = none := by
    simp [State.readSignal, h.pipe_eq, h.open_eq]
  cases k with
  | w32 => simp [Session.step, Session.reader32, h.pc_eq, hsignal]
  | w64 => simp [Session.step, Session.reader64, h.pc_eq, hsignal]

/-- The readers after one of them has gone on. -/
theorem others_update {r : Reader} (h : Others s k)
    (hs : s'.reader = Function.update s.reader k r) : Others s' k := by
  intro j hj
  rw [hs, Function.update_of_ne hj]
  exact h j hj

theorem all_idle {r : Reader} (h : Others s k) (hs : s'.reader = Function.update s.reader k r)
    (hr : At r .read []) : ∀ j, At (s'.reader j) .read [] := by
  intro j
  rw [hs]
  by_cases hj : j = k
  · subst hj
    rw [Function.update_self]
    exact hr
  · rw [Function.update_of_ne hj]
    exact h j hj

/-- The variables after one reader has gone on. -/
theorem cells_update (s : Session) (k : Width) (r : Reader) :
    (fun j => cellsOf j (Function.update s.reader k r j)) =
      Function.update s.feed.cells k (cellsOf k r) := by
  funext j
  by_cases hj : j = k
  · subst hj
    simp
  · simp [hj, Session.feed]

theorem feed_of_update {r : Reader} (hs : s'.reader = Function.update s.reader k r)
    (hinput : s'.input = s.input) (hnumber : s'.readerToRun = s.readerToRun)
    (hcells : ∀ j, cellsOf j r = cellsOf j (s.reader k)) : s'.feed = s.feed := by
  have hsame := cells_update s k r
  rw [hcells k] at hsame
  simp only [Session.feed, hinput, hnumber, hs, hsame, Feed.mk.injEq, true_and]
  exact Function.update_eq_self k s.feed.cells

/-- What a reader does with the value of its first or only `scanf`. -/
def storeOf : Width → Reader → Option UInt64 → Reader
  | .w32 => Reader.storeLow
  | .w64 => Reader.storeWord

variable {above : ℕ → Text}

theorem step_signal (h : At (s.reader k) .read [49]) :
    s.step above (.reader k) = some { s with
      toState := s.setReader k { s.reader k with pipe := [], pc := .scan } } := by
  have hsignal : s.readSignal k =
      some (s.setReader k { s.reader k with pipe := [], pc := .scan }) := by
    simp [State.readSignal, h.pipe_eq]
  cases k with
  | w32 => simp [Session.step, Session.reader32, h.pc_eq, hsignal]
  | w64 => simp [Session.step, Session.reader64, h.pc_eq, hsignal]

theorem step_low (h : At (s.reader k) .scan []) :
    s.step above (.reader k) = some (s.scanf k (scanOf k) (storeOf k)) := by
  cases k with
  | w32 => simp [Session.step, Session.reader32, h.pc_eq, scanOf, storeOf]
  | w64 => simp [Session.step, Session.reader64, h.pc_eq, scanOf, storeOf]

theorem step_high (h : At (s.reader .w32) .scanHigh []) :
    s.step above (.reader .w32) = some (s.scanf .w32 scanLong Reader.storeHigh) := by
  simp [Session.step, Session.reader32, h.pc_eq]

theorem step_write (h : At (s.reader k) .write []) :
    s.step above (.reader k) = some (s.writeReply k) := by
  cases k with
  | w32 => simp [Session.step, Session.reader32, h.pc_eq]
  | w64 => simp [Session.step, Session.reader64, h.pc_eq]

theorem feed_low (hk : s.feed.target = k) :
    (s.scanf k (scanOf k) (storeOf k)).feed = s.feed.low := by
  subst hk
  have hcells := cells_update s s.feed.target (storeOf s.feed.target (s.reader s.feed.target)
    (s.input.scanf (.reader s.feed.target) (scanOf s.feed.target)).1)
  have hstore : ∀ (j : Width) (r : Reader) (v : Option UInt64),
      cellsOf j (storeOf j r v) = (v.getD (cellsOf j r).1, (cellsOf j r).2) := by
    intro j r v
    cases j
    · rfl
    · rfl
  rw [hstore] at hcells
  exact congrArg (Feed.mk _ _) hcells

theorem feed_high (hk : s.feed.target = .w32) :
    (s.scanf .w32 scanLong Reader.storeHigh).feed = s.feed.high := by
  have hcells := cells_update s .w32 (Reader.storeHigh (s.reader .w32)
    (s.input.scanf (.reader .w32) scanLong).1)
  simp only [Feed.high, hk]
  exact congrArg (Feed.mk _ _) hcells

/-- The pass of `reader64` has one `scanf`. -/
theorem high_of_w64 (hk : f.target = .w64) : f.high = f := by
  simp only [Feed.high, hk]

theorem Stage.reader_step {got : UInt64} (h : Stage f got s n)
    (hs : s.step above (.reader k) = some s') : ∃ m, n < m ∧ Stage f got s' m := by
  have hidle : At (s.reader k) .read [] → ∃ m, n < m ∧ Stage f got s' m := by
    intro hat
    rw [stuck_of_idle hat] at hs
    cases hs
  cases h with
  | scan _ hall | request _ hall | replied _ hall | run _ hall => exact hidle (hall k)
  | asked hmain hothers hat hreplies hfeed =>
      by_cases hk : k = f.choose.target
      · subst hk
        rw [step_signal hat] at hs
        obtain rfl := Option.some.inj hs
        refine ⟨3, by omega, .low hmain (others_update hothers rfl) ?_ hreplies ?_⟩
        · simp only [State.setReader, Function.update_self]
          exact ⟨rfl, rfl, hat.open_eq⟩
        · rw [← hfeed]
          exact feed_of_update rfl rfl rfl fun j => by cases j <;> rfl
      · exact hidle (hothers k hk)
  | low hmain hothers hat hreplies hfeed =>
      by_cases hk : k = f.choose.target
      · subst hk
        rw [step_low hat] at hs
        obtain rfl := Option.some.inj hs
        have hnext := feed_low (s := s) (k := f.choose.target) (by rw [hfeed])
        rw [hfeed] at hnext
        cases htarget : f.choose.target with
        | w32 =>
            rw [htarget] at hothers hat hnext
            refine ⟨4, by omega, .high hmain ?_ htarget ?_ hreplies hnext⟩
            · rw [htarget]
              exact others_update hothers rfl
            · rw [htarget]
              exact ⟨by simp [Session.scanf, storeOf, Reader.storeLow],
                by simp [Session.scanf, storeOf, Reader.storeLow, hat.pipe_eq],
                by simp [Session.scanf, storeOf, Reader.storeLow, hat.open_eq]⟩
        | w64 =>
            rw [htarget] at hothers hat hnext
            have hpass : f.pass = f.choose.low :=
              high_of_w64 (by rw [Feed.low_target, htarget])
            refine ⟨5, by omega, .write hmain ?_ ?_ hreplies (hnext.trans hpass.symm) ?_⟩
            · rw [htarget]
              exact others_update hothers rfl
            · rw [htarget]
              exact ⟨by simp [Session.scanf, storeOf, Reader.storeWord],
                by simp [Session.scanf, storeOf, Reader.storeWord, hat.pipe_eq],
                by simp [Session.scanf, storeOf, Reader.storeWord, hat.open_eq]⟩
            · rw [htarget, hpass, ← hnext, Feed.word, hnext, Feed.low_target, htarget, ← hnext]
              rfl
      · exact hidle (hothers k hk)
  | high hmain hothers htarget hat hreplies hfeed =>
      rw [htarget] at hothers hat
      by_cases hk : k = .w32
      · subst hk
        rw [step_high hat] at hs
        obtain rfl := Option.some.inj hs
        have htarget' : f.choose.low.target = .w32 := by rw [Feed.low_target, htarget]
        have hnext := feed_high (s := s) (by rw [hfeed, htarget'])
        rw [hfeed] at hnext
        refine ⟨5, by omega, .write hmain ?_ ?_ hreplies hnext ?_⟩
        · rw [htarget]
          exact others_update hothers rfl
        · rw [htarget]
          exact ⟨by simp [Session.scanf, Reader.storeHigh],
            by simp [Session.scanf, Reader.storeHigh, hat.pipe_eq],
            by simp [Session.scanf, Reader.storeHigh, hat.open_eq]⟩
        · rw [htarget, Feed.pass, ← hnext, Feed.word, hnext, Feed.high_target, htarget', ← hnext]
          simp [Session.feed, cellsOf, Session.scanf, Reader.storeHigh]
      · exact hidle (hothers k hk)
  | write hmain hothers hat hreplies hfeed hword =>
      by_cases hk : k = f.choose.target
      · subst hk
        rw [step_write hat] at hs
        obtain rfl := Option.some.inj hs
        refine ⟨6, by omega, .replied hmain (all_idle hothers rfl ?_) ?_ ?_⟩
        · exact ⟨rfl, hat.pipe_eq, hat.open_eq⟩
        · simp [Session.writeReply, hreplies, hword]
        · rw [← hfeed]
          exact feed_of_update rfl rfl rfl fun j => by cases j <;> rfl
      · exact hidle (hothers k hk)

/-! ## Steps of `main` -/

theorem fill_eq {w : UInt64} (h : s.replies = reply w) (above : Text) :
    sscanfHex (s.fill.toList ++ above) = handOff w s.polygonBuffer above := by
  rw [handOff, ← h]
  simp [Session.fill, readReply]

/-- The readers do not exit while `main` waits for a reply. -/
theorem waits_of_asked {pc : ReaderPc} {pipe : Text} (hmain : s.main = .read)
    (hat : At (s.reader k) pc pipe) (hpc : pc ≠ .exited) (hreplies : s.replies = []) :
    s.step above .main = none := by
  have hnot : ¬(s.exited .w32 ∧ s.exited .w64) := by
    rintro ⟨h32, h64⟩
    apply hpc
    rw [← hat.pc_eq]
    cases k
    · simpa [State.exited] using h32
    · simpa [State.exited] using h64
  simp only [Session.step, Session.runMain, hmain, hreplies]
  rw [if_pos ⟨trivial, hnot⟩]

theorem step_scan (above : ℕ → Text) (hmain : s.main = .scan) :
    ∃ s', s.step above .main = some s' ∧ s'.main = .request ∧ s'.reader = s.reader ∧
      s'.replies = s.replies ∧ s'.feed = s.feed.choose := by
  simp only [Session.step, Session.runMain, hmain]
  exact ⟨_, rfl, rfl, rfl, rfl, rfl⟩

theorem step_request (hmain : s.main = .request) :
    s.step above .main = some { s with
      toState := { s.toState.send s.feed.target [49] with main := .read } } := by
  simp only [Session.step, Session.runMain, hmain, State.runMain, Option.map_some]
  rfl

theorem step_read (above : ℕ → Text) {w : UInt64} (hmain : s.main = .read)
    (hreplies : s.replies = reply w) :
    ∃ s', s.step above .main = some s' ∧ s'.main = .run ∧ s'.reader = s.reader ∧
      s'.replies = [] ∧ s'.feed = s.feed ∧
      some s'.nextPolygon = handOff w s.polygonBuffer (above s.processed) := by
  have hlen : s.replies.length = 16 := by rw [hreplies, reply_eq, sprintfHex_length]
  have hne : s.replies ≠ [] := List.ne_nil_of_length_eq_add_one hlen
  simp only [Session.step, Session.runMain, hmain]
  rw [if_neg fun h => hne h.1]
  refine ⟨_, rfl, rfl, rfl, List.drop_of_length_le hlen.le, rfl, ?_⟩
  rw [fill_eq hreplies, handOff_eq_numeral]
  rfl

/-- `main` gets nearer to the word. -/
theorem Stage.main_step {got : UInt64} (h : Stage f got s n) (hn : n < 7)
    (hgot : handOff f.pass.word s.polygonBuffer (above s.processed) = some got)
    (hs : s.step above .main = some s') : ∃ m, n < m ∧ Stage f got s' m := by
  have hwait : ∀ {k : Width} {pc : ReaderPc} {pipe : Text}, s.main = .read →
      At (s.reader k) pc pipe → pc ≠ .exited → s.replies = [] →
      ∃ m, n < m ∧ Stage f got s' m := by
    intro k pc pipe hmain hat hpc hreplies
    rw [waits_of_asked hmain hat hpc hreplies] at hs
    cases hs
  cases h with
  | scan hmain hall hreplies hfeed =>
      obtain ⟨s₁, hs₁, hmain₁, hreader₁, hreplies₁, hfeed₁⟩ := step_scan above hmain
      obtain rfl : s₁ = s' := Option.some.inj (hs₁.symm.trans hs)
      refine ⟨1, by omega, .request hmain₁ ?_ (hreplies₁.trans hreplies) ?_⟩
      · rw [hreader₁]
        exact hall
      · rw [hfeed₁, hfeed]
  | request hmain hall hreplies hfeed =>
      rw [step_request hmain, hfeed] at hs
      obtain rfl := Option.some.inj hs
      have hidle := hall f.choose.target
      refine ⟨2, by omega, .asked rfl ?_ ?_ hreplies ?_⟩
      · exact others_update (fun j _ => hall j) rfl
      · simp only [State.send, State.setReader, Function.update_self]
        exact ⟨hidle.pc_eq, by rw [hidle.pipe_eq]; rfl, hidle.open_eq⟩
      · rw [← hfeed]
        exact feed_of_update rfl rfl rfl fun j => by cases j <;> rfl
  | asked hmain _ hat hreplies => exact hwait hmain hat (by decide) hreplies
  | low hmain _ hat hreplies => exact hwait hmain hat (by decide) hreplies
  | high hmain _ _ hat hreplies => exact hwait hmain hat (by decide) hreplies
  | write hmain _ hat hreplies => exact hwait hmain hat (by decide) hreplies
  | replied hmain hall hreplies hfeed =>
      obtain ⟨s₁, hs₁, hmain₁, hreader₁, hreplies₁, hfeed₁, hgot₁⟩ :=
        step_read above hmain hreplies
      obtain rfl : s₁ = s' := Option.some.inj (hs₁.symm.trans hs)
      refine ⟨7, by omega, .run hmain₁ ?_ hreplies₁ (hfeed₁.trans hfeed) ?_⟩
      · rw [hreader₁]
        exact hall
      · exact Option.some.inj (hgot₁.trans hgot)
  | run => exact absurd hn (Nat.lt_irrefl 7)

/-- Before the end of a pass somebody can move. -/
theorem Stage.moves (above : ℕ → Text) {got : UInt64} (h : Stage f got s n) (hn : n < 7) :
    ∃ a, (s.step above a).isSome = true := by
  cases h with
  | scan hmain =>
      obtain ⟨s₁, hs₁, _⟩ := step_scan above hmain
      exact ⟨.main, by rw [hs₁]; rfl⟩
  | request hmain => exact ⟨.main, by rw [step_request hmain]; rfl⟩
  | asked _ _ hat => exact ⟨.reader _, by rw [step_signal hat]; rfl⟩
  | low _ _ hat => exact ⟨.reader _, by rw [step_low hat]; rfl⟩
  | high _ _ htarget hat =>
      rw [htarget] at hat
      exact ⟨.reader .w32, by rw [step_high hat]; rfl⟩
  | write _ _ hat => exact ⟨.reader _, by rw [step_write hat]; rfl⟩
  | replied hmain _ hreplies =>
      obtain ⟨s₁, hs₁, _⟩ := step_read above hmain hreplies
      exact ⟨.main, by rw [hs₁]; rfl⟩
  | run => exact absurd hn (Nat.lt_irrefl 7)

theorem Stage.left {got : UInt64} (h : Stage f got s n) : s.main.left = false := by
  cases h with
  | scan hmain | request hmain | asked hmain | low hmain | high hmain | write hmain
  | replied hmain | run hmain => rw [hmain]; rfl

end OsSolutions.Streams
