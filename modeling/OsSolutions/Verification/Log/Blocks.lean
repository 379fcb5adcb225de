import OsSolutions.Source.Log
import Mathlib.Algebra.Group.Nat.Defs
import Mathlib.Data.List.GetD
import Mathlib.Data.List.Perm.Subperm

/-! # Blocks in the cache, on the disk and in the log area

The buffer operations of the log are seen here through what a reader finds, through the disk,
and through the set of dirty blocks. -/

namespace OsSolutions

namespace Drive

variable {d d' : Drive} {b c : BlockNo} {data : Block} {locked : List BlockNo}
  {P Q : BlockNo → Prop}

/-- Apart from some blocks only a dirty buffer differs from its block on the disk. -/
def CleanBut (d : Drive) (P : BlockNo → Prop) : Prop :=
  ∀ b, ¬P b → d.dirty b = false → d.view b = d.disk b

abbrev Clean (d : Drive) : Prop := d.CleanBut fun _ => False

theorem CleanBut.mono (h : d.CleanBut P) (hPQ : ∀ b, P b → Q b) : d.CleanBut Q :=
  fun b hb => h b (mt (hPQ b) hb)

/-! ## Single operations -/

@[simp] theorem bwrite_disk (d : Drive) (b : BlockNo) (data : Block) :
    (d.bwrite b data).disk = Function.update d.disk b data := rfl

@[simp] theorem bwrite_view (d : Drive) (b : BlockNo) (data : Block) :
    (d.bwrite b data).view = Function.update d.view b data := by
  funext c
  by_cases hc : c = b
  · subst hc
    simp [bwrite, view]
  · simp [bwrite, view, hc]

@[simp] theorem bwrite_dirty (d : Drive) (b : BlockNo) (data : Block) :
    (d.bwrite b data).dirty = Function.update d.dirty b false := by
  funext c
  by_cases hc : c = b
  · subst hc
    simp [bwrite, dirty]
  · simp [bwrite, dirty, hc]

@[simp] theorem store_disk (d : Drive) (b : BlockNo) (data : Block) :
    (d.store b data).disk = d.disk := rfl

@[simp] theorem store_view (d : Drive) (b : BlockNo) (data : Block) :
    (d.store b data).view = Function.update d.view b data := by
  funext c
  by_cases hc : c = b
  · subst hc
    simp [store, view]
  · simp [store, view, hc]

@[simp] theorem store_dirty (d : Drive) (b : BlockNo) (data : Block) :
    (d.store b data).dirty = d.dirty := by
  funext c
  by_cases hc : c = b
  · subst hc
    simp [store, dirty]
  · simp [store, dirty, hc]

@[simp] theorem pin_disk (d : Drive) (b : BlockNo) : (d.pin b).disk = d.disk := rfl

@[simp] theorem pin_view (d : Drive) (b : BlockNo) : (d.pin b).view = d.view := by
  funext c
  by_cases hc : c = b
  · subst hc
    simp [pin, view]
  · simp [pin, view, hc]

@[simp] theorem pin_dirty (d : Drive) (b : BlockNo) :
    (d.pin b).dirty = Function.update d.dirty b true := by
  funext c
  by_cases hc : c = b
  · subst hc
    simp [pin, dirty]
  · simp [pin, dirty, hc]

theorem CleanBut.store (h : d.CleanBut P) (hPQ : ∀ c, P c → Q c) (hb : Q b) (data : Block) :
    (d.store b data).CleanBut Q := by
  intro c hc hdirty
  rw [store_dirty] at hdirty
  rw [store_view, store_disk, Function.update_of_ne]
  · exact h c (mt (hPQ c) hc) hdirty
  · rintro rfl
    exact hc hb

theorem CleanBut.pin (h : d.CleanBut P) (hPQ : ∀ c, P c → c = b ∨ Q c) : (d.pin b).CleanBut Q := by
  intro c hc hdirty
  rw [pin_dirty] at hdirty
  have hne : c ≠ b := by
    rintro rfl
    simp at hdirty
  rw [Function.update_of_ne hne] at hdirty
  rw [pin_view, pin_disk]
  exact h c (fun hP => (hPQ c hP).elim hne hc) hdirty

/-! ## Drives that look alike -/

/-- The disk, what readers find, and the dirty blocks are the same. -/
structure Alike (d d' : Drive) : Prop where
  disk : d'.disk = d.disk
  view : d'.view = d.view
  dirty : d'.dirty = d.dirty

theorem Alike.trans {d₁ d₂ d₃ : Drive} (h : Alike d₁ d₂) (k : Alike d₂ d₃) : Alike d₁ d₃ :=
  ⟨k.disk.trans h.disk, k.view.trans h.view, k.dirty.trans h.dirty⟩

theorem Alike.brelse (d : Drive) (b : BlockNo) : Alike d (d.brelse b) := ⟨rfl, rfl, rfl⟩

theorem Alike.cleanBut (h : Alike d d') (hd : d.CleanBut P) : d'.CleanBut P := by
  intro b hb hdirty
  rw [h.dirty] at hdirty
  rw [h.view, h.disk]
  exact hd b hb hdirty

/-- A block that has no buffer is read from the disk. -/
theorem Alike.fetch (hb : d.cache b = none) : Alike d (d.fetch b) := by
  refine ⟨rfl, ?_, ?_⟩
  · funext c
    by_cases hc : c = b
    · subst hc
      simp [Drive.fetch, Drive.view, hb]
    · simp [Drive.fetch, Drive.view, hc]
  · funext c
    by_cases hc : c = b
    · subst hc
      simp [Drive.fetch, Drive.dirty, hb]
    · simp [Drive.fetch, Drive.dirty, hc]

theorem Alike.recycle (hc : d.dirty c = false) (hclean : d.view c = d.disk c) :
    Alike d (d.recycle c) := by
  refine ⟨rfl, ?_, ?_⟩
  · funext x
    by_cases hx : x = c
    · subst hx
      rw [hclean]
      simp [Drive.recycle, Drive.view]
    · simp [Drive.recycle, Drive.view, hx]
  · funext x
    by_cases hx : x = c
    · subst hx
      rw [hc]
      simp [Drive.recycle, Drive.dirty]
    · simp [Drive.recycle, Drive.dirty, hx]

theorem victim_eq_some (h : d.victim locked = some c) : c ∉ locked ∧ d.dirty c = false := by
  simpa using List.find?_some h

theorem bread_alike {x : Block} (hclean : d.CleanBut (· ∈ locked))
    (h : d.bread locked b = some (d', x)) : Alike d d' ∧ x = d.view b := by
  unfold bread at h
  cases hb : d.cache b with
  | some buf =>
      simp only [hb, Option.some.injEq, Prod.mk.injEq] at h
      obtain ⟨rfl, rfl⟩ := h
      exact ⟨⟨rfl, rfl, rfl⟩, by simp [view, hb]⟩
  | none =>
      simp only [hb] at h
      split at h
      · obtain ⟨rfl, rfl⟩ := Prod.mk.inj (Option.some.inj h)
        exact ⟨.fetch hb, by simp [view, hb]⟩
      · obtain ⟨c, hc, heq⟩ := Option.map_eq_some_iff.mp h
        obtain ⟨rfl, rfl⟩ := Prod.mk.inj heq
        obtain ⟨hlocked, hdirty⟩ := victim_eq_some hc
        have hnone : (d.recycle c).cache b = none := by
          by_cases hbc : b = c
          · subst hbc
            simp [recycle]
          · simp [recycle, hbc, hb]
        exact ⟨(Alike.recycle hdirty (hclean c hlocked hdirty)).trans (.fetch hnone),
          by simp [view, hb]⟩

/-- There is a buffer for the block as long as fewer than `NBUF` other ones are dirty or
locked. -/
theorem bread_isSome (dirty : List BlockNo) (hdirty : ∀ c, c ≠ b → d.dirty c = true → c ∈ dirty)
    (hlen : dirty.length + locked.length < NBUF) : (d.bread locked b).isSome = true := by
  unfold bread
  cases hb : d.cache b with
  | some buf => rfl
  | none =>
      dsimp only
      split
      · rfl
      · rename_i hfull
        have hbdirty : d.dirty b = false := by simp [Drive.dirty, hb]
        -- one of the buffers is neither dirty nor locked
        obtain ⟨c, hc, hout⟩ : ∃ c ∈ d.lru, c ∉ dirty ++ locked := by
          by_contra hnone
          have hsub : d.lru ⊆ dirty ++ locked := by
            intro c hc
            by_contra hout
            exact hnone ⟨c, hc, hout⟩
          have hle := (List.subperm_of_subset d.nodup hsub).length_le
          rw [List.length_append] at hle
          omega
        rw [List.mem_append, not_or] at hout
        have hclean : d.dirty c = false := by
          by_contra hne
          refine hout.1 (hdirty c ?_ (by simpa using hne))
          rintro rfl
          exact hne hbdirty
        rw [Option.isSome_map, victim, List.find?_isSome]
        exact ⟨c, by simpa using hc, by simpa using ⟨hout.2, hclean⟩⟩

/-! ## A block on the disk -/

/-- Data have been written to one block of the disk. -/
structure Wrote (d d' : Drive) (b : BlockNo) (data : Block) : Prop where
  disk : d'.disk = Function.update d.disk b data
  view : d'.view = Function.update d.view b data
  dirty : d'.dirty = Function.update d.dirty b false

theorem Wrote.of_bwrite {d₁ d₂ : Drive} (h : Alike d d₁) (h' : Alike (d₁.bwrite b data) d₂) :
    Wrote d d₂ b data where
  disk := by rw [h'.disk, bwrite_disk, h.disk]
  view := by rw [h'.view, bwrite_view, h.view]
  dirty := by rw [h'.dirty, bwrite_dirty, h.dirty]

theorem Wrote.cleanBut (h : Wrote d d' b data) (hd : d.CleanBut P) : d'.CleanBut P := by
  intro c hc hdirty
  rw [h.view, h.disk]
  by_cases hcb : c = b
  · subst hcb
    rw [Function.update_self, Function.update_self]
  · rw [h.dirty, Function.update_of_ne hcb] at hdirty
    rw [Function.update_of_ne hcb, Function.update_of_ne hcb]
    exact hd c hc hdirty

theorem Wrote.dirty_iff (h : Wrote d d' b data) : d'.dirty c = true ↔ c ≠ b ∧ d.dirty c = true := by
  rw [h.dirty]
  by_cases hcb : c = b
  · subst hcb
    simp
  · simp [hcb]

end Drive

namespace LogArea

open Drive

variable {area : LogArea} {d d' : Drive} {locked lh : List BlockNo} {tail : ℕ} {b : BlockNo}

theorem writeLog_wrote (hclean : d.CleanBut (· ∈ locked))
    (h : area.writeLog locked tail b d = some d') :
    Wrote d d' (area.block tail) (d.view b) := by
  simp only [writeLog, Option.bind_eq_bind, Option.bind_eq_some_iff, Prod.exists,
    Option.pure_def, Option.some.injEq] at h
  obtain ⟨d₁, _, h₁, d₂, data, h₂, rfl⟩ := h
  obtain ⟨halike₁, -⟩ := bread_alike hclean h₁
  obtain ⟨halike₂, rfl⟩ := bread_alike
    ((halike₁.cleanBut hclean).mono fun c hc => List.mem_cons_of_mem _ hc) h₂
  rw [halike₁.view]
  exact .of_bwrite (halike₁.trans halike₂) ((Alike.brelse _ _).trans (.brelse _ _))

theorem installTrans_wrote (hclean : d.CleanBut (· ∈ locked))
    (h : area.installTrans locked tail b d = some d') :
    Wrote d d' b (d.view (area.block tail)) := by
  simp only [installTrans, Option.bind_eq_bind, Option.bind_eq_some_iff, Prod.exists,
    Option.pure_def, Option.some.injEq] at h
  obtain ⟨d₁, data, h₁, d₂, _, h₂, rfl⟩ := h
  obtain ⟨halike₁, rfl⟩ := bread_alike hclean h₁
  obtain ⟨halike₂, -⟩ := bread_alike
    ((halike₁.cleanBut hclean).mono fun c hc => List.mem_cons_of_mem _ hc) h₂
  exact .of_bwrite (halike₁.trans halike₂) ((Alike.brelse _ _).trans (.brelse _ _))

theorem writeHead_wrote (hclean : d.CleanBut (· ∈ locked))
    (h : area.writeHead locked lh d = some d') :
    Wrote d d' area.start (putHead lh (d.view area.start)) := by
  simp only [writeHead, Option.bind_eq_bind, Option.bind_eq_some_iff, Prod.exists,
    Option.pure_def, Option.some.injEq] at h
  obtain ⟨d₁, _, h₁, rfl⟩ := h
  obtain ⟨halike, rfl⟩ := bread_alike hclean h₁
  exact .of_bwrite halike (.brelse _ _)

theorem readHead_alike {head : Option (List BlockNo)} (hclean : d.CleanBut (· ∈ locked))
    (h : area.readHead locked d = some (d', head)) :
    Alike d d' ∧ head = getHead (d.view area.start) := by
  simp only [readHead, Option.bind_eq_bind, Option.bind_eq_some_iff, Prod.exists,
    Option.pure_def, Option.some.injEq, Prod.mk.injEq] at h
  obtain ⟨d₁, _, h₁, rfl, rfl⟩ := h
  obtain ⟨halike, rfl⟩ := bread_alike hclean h₁
  exact ⟨halike.trans (.brelse _ _), rfl⟩

theorem readHead_snd {head : Option (List BlockNo)} (h : area.readHead locked d = some (d', head)) :
    ∃ x, head = getHead x := by
  simp only [readHead, Option.bind_eq_bind, Option.bind_eq_some_iff, Prod.exists,
    Option.pure_def, Option.some.injEq, Prod.mk.injEq] at h
  obtain ⟨_, x, _, _, rfl⟩ := h
  exact ⟨x, rfl⟩

/-! ## Enough buffers -/

/-- A pass needs one buffer besides that of `b`, while nobody else holds any. -/
theorem exists_bread_twice (a : BlockNo) (dirty : List BlockNo) (hclean : d.Clean)
    (hdirty : ∀ c, d.dirty c = true → c ∈ b :: dirty) (hlen : dirty.length + 1 < NBUF) :
    ∃ d₁ x d₂ y, d.bread [] a = some (d₁, x) ∧ d₁.bread [a] b = some (d₂, y) := by
  have hfirst : (d.bread [] a).isSome = true :=
    bread_isSome (b :: dirty) (fun c _ hc => hdirty c hc) (by simpa using hlen)
  obtain ⟨⟨d₁, x⟩, h₁⟩ := Option.isSome_iff_exists.mp hfirst
  obtain ⟨halike, -⟩ := bread_alike (hclean.mono fun c hc => hc.elim) h₁
  have hsecond : (d₁.bread [a] b).isSome = true := by
    refine bread_isSome dirty (fun c hne hc => ?_) hlen
    rw [halike.dirty] at hc
    exact (List.mem_cons.mp (hdirty c hc)).resolve_left hne
  obtain ⟨⟨d₂, y⟩, h₂⟩ := Option.isSome_iff_exists.mp hsecond
  exact ⟨d₁, x, d₂, y, h₁, h₂⟩

theorem writeLog_isSome (dirty : List BlockNo) (hclean : d.Clean)
    (hdirty : ∀ c, d.dirty c = true → c ∈ b :: dirty) (hlen : dirty.length + 1 < NBUF) :
    (area.writeLog [] tail b d).isSome = true := by
  obtain ⟨d₁, x, d₂, y, h₁, h₂⟩ := exists_bread_twice (area.block tail) dirty hclean hdirty hlen
  simp [writeLog, h₁, h₂]

theorem installTrans_isSome (dirty : List BlockNo) (hclean : d.Clean)
    (hdirty : ∀ c, d.dirty c = true → c ∈ b :: dirty) (hlen : dirty.length + 1 < NBUF) :
    (area.installTrans [] tail b d).isSome = true := by
  obtain ⟨d₁, x, d₂, y, h₁, h₂⟩ := exists_bread_twice (area.block tail) dirty hclean hdirty hlen
  simp [installTrans, h₁, h₂]

theorem writeHead_isSome (dirty : List BlockNo) (hdirty : ∀ c, d.dirty c = true → c ∈ dirty)
    (hlen : dirty.length < NBUF) : (area.writeHead [] lh d).isSome = true := by
  have hbread : (d.bread [] area.start).isSome = true :=
    bread_isSome dirty (fun c _ hc => hdirty c hc) (by simpa using hlen)
  obtain ⟨⟨d₁, x⟩, h₁⟩ := Option.isSome_iff_exists.mp hbread
  simp [writeHead, h₁]

theorem readHead_isSome (hdirty : ∀ c, d.dirty c = false) :
    (area.readHead [] d).isSome = true := by
  have hbread : (d.bread [] area.start).isSome = true :=
    bread_isSome [] (fun c _ hc => by simp [hdirty c] at hc) (by decide)
  obtain ⟨⟨d₁, x⟩, h₁⟩ := Option.isSome_iff_exists.mp hbread
  simp [readHead, h₁]

end LogArea

/-! ## The header block -/

/-- `read_head` finds what `write_head` has written. -/
theorem getHead_putHead {lh : List BlockNo} (h : lh.length ≤ LOGSIZE) (b : Block) :
    getHead (putHead lh b) = some lh := by
  have hn : (putHead lh b 0).toInt32.toInt = lh.length := by
    change (Int32.ofNat lh.length).toInt = lh.length
    exact Int32.toInt_ofNat_of_lt (Nat.lt_of_le_of_lt h (by decide))
  unfold getHead
  rw [hn, if_pos (by exact_mod_cast h)]
  congr 1
  apply List.ext_getElem
  · simp
  · intro i hi hi'
    have hi128 : i + 1 < 128 := by
      have : LOGSIZE = 30 := rfl
      omega
    simp [putHead, Nat.mod_eq_of_lt hi128, hi']

namespace LogArea

variable {area : LogArea} {i j : ℕ}

/-- The blocks of the log: the header, and the copies behind it. -/
def Holds (area : LogArea) (b : BlockNo) : Prop :=
  ∃ i < area.size, b = area.start + UInt32.ofNat i

theorem holds_start (area : LogArea) : area.Holds area.start :=
  ⟨0, area.header, by simp⟩

theorem block_eq (area : LogArea) (i : ℕ) : area.block i = area.start + UInt32.ofNat (i + 1) := by
  rw [block, UInt32.ofNat_add, UInt32.add_assoc]
  rfl

theorem holds_block (h : i + 1 < area.size) : area.Holds (area.block i) :=
  ⟨i + 1, h, area.block_eq i⟩

theorem offset_inj {a : BlockNo} (hi : i < 2 ^ 32) (hj : j < 2 ^ 32)
    (h : a + UInt32.ofNat i = a + UInt32.ofNat j) : i = j := by
  have htoNat := congrArg UInt32.toNat h
  simp only [UInt32.toNat_add, UInt32.toNat_ofNat'] at htoNat
  omega

theorem lt_of_lt_logsize (h : i < LOGSIZE) : i + 1 < 2 ^ 32 :=
  Nat.lt_of_le_of_lt (Nat.succ_le_of_lt h) (by decide)

theorem block_ne_start (h : i < LOGSIZE) : area.block i ≠ area.start := by
  intro heq
  have hzero : area.start + UInt32.ofNat (i + 1) = area.start + UInt32.ofNat 0 := by
    rw [← block_eq, heq]
    simp
  exact absurd (offset_inj (lt_of_lt_logsize h) (by decide) hzero) (Nat.succ_ne_zero i)

theorem block_inj (hi : i < LOGSIZE) (hj : j < LOGSIZE) (h : area.block i = area.block j) :
    i = j := by
  rw [block_eq, block_eq] at h
  exact Nat.succ.inj (offset_inj (lt_of_lt_logsize hi) (lt_of_lt_logsize hj) h)

end LogArea

end OsSolutions
