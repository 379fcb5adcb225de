import OsSolutions.Source.Pipe
import OsSolutions.Storage.Ring

/-! # The bytes in a pipe

`nread` and `nwrite` count modulo `2 ^ 32`, and `PIPESIZE` divides `2 ^ 32`. So the buffer is a
ring for the sequence of all bytes ever written, however often the counters wrap around. -/

namespace OsSolutions

open Storage

namespace Pipe

/-- `all` has been written and the first `k` of these bytes have been read. -/
structure Filled (p : Pipe) (all : List UInt8) (k : ℕ) : Prop where
  window : Window p.data all k
  nread : p.nread = UInt32.ofNat k
  nwrite : p.nwrite = UInt32.ofNat all.length

variable {p q : Pipe} {all : List UInt8} {k : ℕ}

theorem filled_alloc (page : Fin PIPESIZE → UInt8) : (alloc page).Filled [] 0 :=
  ⟨.nil page, rfl, rfl⟩

theorem slot_ofNat (n : ℕ) : slot (UInt32.ofNat n) = Fin.ofNat PIPESIZE n := by
  apply Fin.ext
  change (UInt32.ofNat n).toNat % 512 = n % 512
  rw [UInt32.toNat_ofNat']
  omega

theorem ofNat_eq_iff {m n : ℕ} (hle : m ≤ n) (hlt : n < m + 2 ^ 32) :
    UInt32.ofNat m = UInt32.ofNat n ↔ m = n := by
  constructor
  · intro h
    have hnat := congrArg UInt32.toNat h
    simp only [UInt32.toNat_ofNat'] at hnat
    omega
  · rintro rfl
    rfl

namespace Filled

theorem room (h : p.Filled all k) : all.length ≤ k + 512 := h.window.room

theorem empty_iff (h : p.Filled all k) : p.empty = true ↔ k = all.length := by
  have hroom := h.room
  simp only [empty, decide_eq_true_eq, h.nread, h.nwrite]
  exact ofNat_eq_iff h.window.le (by omega)

theorem full_iff (h : p.Filled all k) : p.full = true ↔ all.length = k + PIPESIZE := by
  have hroom := h.room
  have hsum : UInt32.ofNat k + 512 = UInt32.ofNat (k + 512) := by
    rw [UInt32.ofNat_add]
    rfl
  simp only [full, decide_eq_true_eq, h.nread, h.nwrite, hsum]
  exact ofNat_eq_iff hroom (by have := h.window.le; omega)

theorem length_eq (h : p.Filled all k) : (p.nwrite - p.nread).toNat = all.length - k := by
  have hle := h.window.le
  have hroom := h.room
  rw [h.nread, h.nwrite, UInt32.toNat_sub, UInt32.toNat_ofNat', UInt32.toNat_ofNat']
  omega

/-- The bytes that have not been read are in the cells from `nread` on. -/
theorem data_eq (h : p.Filled all k) {i : ℕ} {x : UInt8} (hx : (all.drop k)[i]? = some x) :
    p.data (slot (p.nread + UInt32.ofNat i)) = x := by
  rw [h.nread, ← UInt32.ofNat_add, slot_ofNat]
  rw [List.getElem?_drop] at hx
  exact h.window.cell (k + i) x (Nat.le_add_right k i) hx

theorem put (h : p.Filled all k) (hfull : p.full = false) (c : UInt8) :
    (p.put c).Filled (all ++ [c]) k where
  window := by
    have hne : all.length ≠ k + PIPESIZE := fun heq => by simp [h.full_iff.mpr heq] at hfull
    have hroom := h.window.room
    rw [Pipe.put, h.nwrite, slot_ofNat]
    exact h.window.push (by omega) c
  nread := h.nread
  nwrite := by
    rw [List.length_append, List.length_singleton, UInt32.ofNat_add]
    change p.nwrite + 1 = _
    rw [h.nwrite]
    rfl

theorem front (h : p.Filled all k) (hk : k < all.length) : all[k]? = some p.front := by
  rw [Pipe.front, h.nread, slot_ofNat]
  exact h.window.front hk

theorem drop (h : p.Filled all k) (hk : k < all.length) : p.drop.Filled all (k + 1) where
  window := h.window.pop hk
  nread := by
    change p.nread + 1 = _
    rw [h.nread, UInt32.ofNat_add]
    rfl
  nwrite := h.nwrite

end Filled

/-- The two flags are as before. -/
structure SameEnds (p q : Pipe) : Prop where
  readopen : q.readopen = p.readopen
  writeopen : q.writeopen = p.writeopen

theorem SameEnds.trans {r : Pipe} (h : SameEnds p q) (k : SameEnds q r) : SameEnds p r :=
  ⟨k.readopen.trans h.readopen, k.writeopen.trans h.writeopen⟩

end Pipe

open Pipe

variable {p q : Pipe} {all : List UInt8} {k : ℕ}

/-! ## `pipewrite` -/

/-- What a section of `pipewrite` does: it puts a first part of the bytes into the pipe, all of
them or so many that the pipe is full. -/
structure WriteSpec (killed : Bool) (addr : List UInt8) (p : Pipe) (all : List UInt8) (k : ℕ)
    (bytes : List UInt8) (q : Pipe) (e : WriteEnd) : Prop where
  split : addr = bytes ++ e.rest
  filled : q.Filled (all ++ bytes) k
  ends : SameEnds p q
  full : e ≠ .returned → q.full = true
  more : e ≠ .returned → e.rest ≠ []
  failed : ∀ rest, e = .failed rest → p.readopen = false ∨ killed = true
  asleep : ∀ rest, e = .asleep rest → p.readopen = true ∧ killed = false

theorem pipewrite_spec (killed : Bool) (addr : List UInt8) (h : p.Filled all k) :
    ∃ bytes, WriteSpec killed addr p all k bytes (pipewrite killed addr p).1
      (pipewrite killed addr p).2 := by
  induction addr generalizing p all with
  | nil =>
      refine ⟨[], rfl, ?_, ⟨rfl, rfl⟩, by simp [pipewrite], by simp [pipewrite],
        by simp [pipewrite], by simp [pipewrite]⟩
      rw [List.append_nil]
      exact h
  | cons c cs ih =>
      rw [pipewrite]
      by_cases hfull : p.full = true
      · rw [if_pos hfull]
        have hsame : p.Filled (all ++ []) k := by rwa [List.append_nil]
        by_cases hfail : p.readopen = false ∨ killed = true
        · rw [if_pos hfail]
          exact ⟨[], rfl, hsame, ⟨rfl, rfl⟩, fun _ => hfull, by simp [WriteEnd.rest],
            fun _ _ => hfail, by simp⟩
        · rw [if_neg hfail]
          rw [not_or] at hfail
          exact ⟨[], rfl, hsame, ⟨rfl, rfl⟩, fun _ => hfull, by simp [WriteEnd.rest], by simp,
            fun _ _ => ⟨by simpa using hfail.1, by simpa using hfail.2⟩⟩
      · rw [if_neg hfull]
        obtain ⟨bytes, hspec⟩ := ih (h.put (by simpa using hfull) c)
        refine ⟨c :: bytes, ?_, ?_, ⟨hspec.ends.readopen, hspec.ends.writeopen⟩, hspec.full,
          hspec.more, hspec.failed, hspec.asleep⟩
        · rw [List.cons_append, ← hspec.split]
        · have hfilled := hspec.filled
          rwa [List.append_assoc, List.singleton_append] at hfilled

/-! ## `piperead` -/

/-- What the copying loop does: it takes the next bytes, `n` or all there are. -/
structure CopySpec (n : ℕ) (p : Pipe) (all : List UInt8) (k : ℕ) (q : Pipe)
    (bytes : List UInt8) : Prop where
  filled : q.Filled all (k + bytes.length)
  next : bytes = (all.drop k).take bytes.length
  ends : SameEnds p q
  stop : bytes.length = n ∨ k + bytes.length = all.length
  le : bytes.length ≤ n

theorem copyOut_spec (n : ℕ) (h : p.Filled all k) :
    CopySpec n p all k (copyOut n p).1 (copyOut n p).2 := by
  induction n generalizing p k with
  | zero => exact ⟨h, rfl, ⟨rfl, rfl⟩, .inl rfl, Nat.le_refl 0⟩
  | succ n ih =>
      rw [copyOut]
      by_cases hempty : p.empty = true
      · rw [if_pos hempty]
        exact ⟨h, rfl, ⟨rfl, rfl⟩, .inr (h.empty_iff.mp hempty), Nat.zero_le _⟩
      · rw [if_neg hempty]
        have hk : k < all.length := by
          have hle := h.window.le
          have hne : k ≠ all.length := mt h.empty_iff.mpr hempty
          omega
        have hspec := ih (h.drop hk)
        have hfront := h.front hk
        refine ⟨?_, ?_, ⟨hspec.ends.readopen, hspec.ends.writeopen⟩, ?_, ?_⟩
        · have hfilled := hspec.filled
          rw [List.length_cons]
          rwa [Nat.add_right_comm] at hfilled
        · rw [List.length_cons, List.drop_eq_getElem_cons hk, List.take_succ_cons,
            ← hspec.next]
          rw [List.getElem?_eq_getElem hk] at hfront
          rw [Option.some.inj hfront]
        · rw [List.length_cons]
          rcases hspec.stop with hn | hall
          · exact .inl (by omega)
          · exact .inr (by omega)
        · rw [List.length_cons]
          have := hspec.le
          omega

/-- What a section of `piperead` does. -/
inductive ReadSpec (killed : Bool) (n : ℕ) (p : Pipe) (all : List UInt8) (k : ℕ) :
    Pipe → ReadEnd → Prop
  | returned {q bytes} : CopySpec n p all k q bytes → (k < all.length ∨ p.writeopen = false) →
      ReadSpec killed n p all k q (.returned bytes)
  | failed : k = all.length → killed = true → ReadSpec killed n p all k p .failed
  | asleep : k = all.length → p.writeopen = true → killed = false →
      ReadSpec killed n p all k p .asleep

theorem piperead_spec (killed : Bool) (n : ℕ) (h : p.Filled all k) :
    ReadSpec killed n p all k (piperead killed n p).1 (piperead killed n p).2 := by
  rw [piperead]
  by_cases hwait : (p.empty && p.writeopen) = true
  · rw [if_pos hwait]
    rw [Bool.and_eq_true] at hwait
    have hk := h.empty_iff.mp hwait.1
    cases killed with
    | true => exact .failed hk rfl
    | false => exact .asleep hk hwait.2 rfl
  · rw [if_neg hwait]
    refine .returned (copyOut_spec n h) ?_
    rw [Bool.and_eq_true, not_and_or] at hwait
    have hle := h.window.le
    rcases hwait with hempty | hopen
    · have hne : k ≠ all.length := mt h.empty_iff.mpr hempty
      exact .inl (by omega)
    · exact .inr (by simpa using hopen)

end OsSolutions
