import OsSolutions.Verification.Log.Blocks

/-! # What the log on the disk stands for

A header with its copies and the home blocks determine contents that the loop of
`install_trans` works towards, after a commit as well as after a crash. -/

namespace OsSolutions

namespace LogArea

open Drive

variable {area : LogArea} {d d' : Drive} {disk : BlockNo → Block} {lh : List BlockNo}
  {v now : BlockNo → Block} {tail : ℕ} {b : BlockNo}

/-- The blocks fit into the log and lie outside of it. -/
structure Fits (area : LogArea) (lh : List BlockNo) : Prop where
  length_le : lh.length ≤ LOGSIZE
  length_lt : lh.length < area.size
  outside : ∀ b ∈ lh, ¬ area.Holds b

/-- With the header `lh` the disk stands for the contents `v`. -/
structure Logged (area : LogArea) (disk : BlockNo → Block) (lh : List BlockNo)
    (v : BlockNo → Block) : Prop where
  header : getHead (disk area.start) = some lh
  copies : ∀ i b, lh[i]? = some b → disk (area.block i) = v b
  home : ∀ b, ¬ area.Holds b → b ∉ lh → disk b = v b

theorem Fits.nil (area : LogArea) : area.Fits [] := ⟨by simp, area.header, by simp⟩

theorem Fits.holds_block (h : area.Fits lh) (hb : lh[tail]? = some b) :
    area.Holds (area.block tail) := by
  obtain ⟨hlt, -⟩ := List.getElem?_eq_some_iff.mp hb
  exact LogArea.holds_block (by have := h.length_lt; omega)

theorem Fits.lt (h : area.Fits lh) (hb : lh[tail]? = some b) : tail < LOGSIZE := by
  obtain ⟨hlt, -⟩ := List.getElem?_eq_some_iff.mp hb
  exact Nat.lt_of_lt_of_le hlt h.length_le

theorem Fits.block_ne_start (h : area.Fits lh) (hb : lh[tail]? = some b) :
    area.block tail ≠ area.start :=
  LogArea.block_ne_start (h.lt hb)

theorem Fits.ne_of_holds (h : area.Fits lh) (hb : lh[tail]? = some b) {c : BlockNo}
    (hc : area.Holds c) : c ≠ b := by
  rintro rfl
  exact h.outside c (List.mem_of_getElem? hb) hc

/-! ## Writes of one block -/

/-- A copy may be written while the header is empty. -/
theorem Logged.copy (h : area.Logged disk [] v) (hb : area.Holds b) (hne : b ≠ area.start)
    (data : Block) : area.Logged (Function.update disk b data) [] v where
  header := by
    rw [Function.update_of_ne (Ne.symm hne)]
    exact h.header
  copies i c hc := by simp at hc
  home c hc _ := by
    rw [Function.update_of_ne]
    · exact h.home c hc (by simp)
    · rintro rfl
      exact hc hb

/-- A home block may be written with the contents that it has a copy of. -/
theorem Logged.install (h : area.Logged disk lh v) (hf : area.Fits lh)
    (hb : lh[tail]? = some b) : area.Logged (Function.update disk b (v b)) lh v where
  header := by
    rw [Function.update_of_ne (hf.ne_of_holds hb area.holds_start)]
    exact h.header
  copies i c hc := by
    rw [Function.update_of_ne (hf.ne_of_holds hb (hf.holds_block hc))]
    exact h.copies i c hc
  home c hc hmem := by
    rw [Function.update_of_ne]
    · exact h.home c hc hmem
    · rintro rfl
      exact hmem (List.mem_of_getElem? hb)

/-- The header is the point of no return: what counted before is what was durable, and what
counts afterwards is in the copies. -/
theorem Logged.commit (h : area.Logged disk [] v) (hf : area.Fits lh) (buf : Block)
    (hcopies : ∀ i b, lh[i]? = some b → disk (area.block i) = now b)
    (hsame : ∀ b, ¬ area.Holds b → b ∉ lh → now b = v b) :
    area.Logged (Function.update disk area.start (putHead lh buf)) lh now where
  header := by
    rw [Function.update_self]
    exact getHead_putHead hf.length_le buf
  copies i b hb := by
    rw [Function.update_of_ne (hf.block_ne_start hb)]
    exact hcopies i b hb
  home b hb hmem := by
    rw [Function.update_of_ne, h.home b hb (by simp), hsame b hb hmem]
    rintro rfl
    exact hb area.holds_start

/-- The header may be erased once all home blocks are written. -/
theorem Logged.erase (hhome : ∀ b, ¬ area.Holds b → disk b = v b) (buf : Block) :
    area.Logged (Function.update disk area.start (putHead [] buf)) [] v where
  header := by
    rw [Function.update_self]
    exact getHead_putHead (by simp) buf
  copies i b hb := by simp at hb
  home b hb _ := by
    rw [Function.update_of_ne, hhome b hb]
    rintro rfl
    exact hb area.holds_start

/-! ## The loops -/

/-- `install_trans` has written the first `tail` home blocks. -/
structure Installing (area : LogArea) (d : Drive) (lh : List BlockNo) (tail : ℕ)
    (v : BlockNo → Block) : Prop where
  logged : area.Logged d.disk lh v
  fits : area.Fits lh
  clean : d.Clean
  dirty : ∀ b, d.dirty b = true → b ∈ lh.drop tail
  done : ∀ b ∈ lh.take tail, d.disk b = v b

/-- All home blocks are written. -/
structure Erasing (area : LogArea) (d : Drive) (v : BlockNo → Block) : Prop where
  home : ∀ b, ¬ area.Holds b → d.disk b = v b
  clean : d.Clean
  dirty : ∀ b, d.dirty b = false

namespace Installing

theorem view_copy (h : area.Installing d lh tail v) (hb : lh[tail]? = some b) :
    d.view (area.block tail) = v b := by
  have hnot : d.dirty (area.block tail) = false := by
    by_contra hdirty
    have hmem := List.mem_of_mem_drop (h.dirty _ (by simpa using hdirty))
    exact h.fits.outside _ hmem (h.fits.holds_block hb)
  rw [h.clean _ id hnot, h.logged.copies tail b hb]

theorem next {locked : List BlockNo} (h : area.Installing d lh tail v) (hb : lh[tail]? = some b)
    (hd : area.installTrans locked tail b d = some d') :
    area.Installing d' lh (tail + 1) v := by
  have hw := installTrans_wrote (h.clean.mono fun _ hc => hc.elim) hd
  rw [h.view_copy hb] at hw
  refine ⟨?_, h.fits, hw.cleanBut h.clean, ?_, ?_⟩
  · rw [hw.disk]
    exact h.logged.install h.fits hb
  · intro c hc
    obtain ⟨hne, hdirty⟩ := hw.dirty_iff.mp hc
    have hmem := h.dirty c hdirty
    rw [List.drop_eq_getElem?_toList_append, hb] at hmem
    simpa [hne] using hmem
  · intro c hc
    rw [hw.disk]
    by_cases heq : c = b
    · subst heq
      rw [Function.update_self]
    · rw [Function.update_of_ne heq]
      rw [List.take_add_one, hb] at hc
      exact h.done c (by simpa [heq] using hc)

/-- The loop has come to its end. -/
theorem finish (h : area.Installing d lh tail v) (hb : lh[tail]? = none) :
    area.Erasing d v where
  home c hc := by
    by_cases hmem : c ∈ lh
    · exact h.done c (by rwa [List.take_of_length_le (List.getElem?_eq_none_iff.mp hb)])
    · exact h.logged.home c hc hmem
  clean := h.clean
  dirty c := by
    by_contra hc
    have hmem := h.dirty c (by simpa using hc)
    rw [List.drop_of_length_le (List.getElem?_eq_none_iff.mp hb)] at hmem
    cases hmem

end Installing

theorem Erasing.erase {locked : List BlockNo} (h : area.Erasing d v)
    (hd : area.writeHead locked [] d = some d') : area.Logged d'.disk [] v := by
  rw [(writeHead_wrote (h.clean.mono fun _ hc => hc.elim) hd).disk]
  exact .erase h.home _

end LogArea

end OsSolutions
