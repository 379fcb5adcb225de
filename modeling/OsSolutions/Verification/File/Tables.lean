import OsSolutions.Source.File
import OsSolutions.Pointers.Count

/-! # The tables of files and descriptors, one operation at a time -/

namespace OsSolutions

variable {Page : Type}

/-- The end of a pipe that a file stands for: its page, and whether it is the write end. -/
def File.pipeEnd (f : File Page) : Option (Page × Bool) :=
  if f.type = .pipe then f.pipe.map fun pg => (pg, f.writable) else none

/-- Two files that differ in their counts at most. -/
structure SameKind (f g : File Page) : Prop where
  type : g.type = f.type
  readable : g.readable = f.readable
  writable : g.writable = f.writable
  pipe : g.pipe = f.pipe

theorem SameKind.refl (f : File Page) : SameKind f f := ⟨rfl, rfl, rfl, rfl⟩

theorem SameKind.pipeEnd {f g : File Page} (h : SameKind f g) : g.pipeEnd = f.pipeEnd := by
  rw [File.pipeEnd, File.pipeEnd, h.type, h.writable, h.pipe]

@[simp] theorem File.pipeEnd_asPipe (f : File Page) (pg : Page) (writable : Bool) :
    (f.asPipe pg writable).pipeEnd = some (pg, writable) := rfl

@[simp] theorem File.pipeEnd_asInode (f : File Page) (omode : UInt32) :
    (f.asInode omode).pipeEnd = none := rfl

theorem File.asPipe_type (f : File Page) (pg : Page) (writable : Bool) :
    (f.asPipe pg writable).type ≠ .none := by
  simp [File.asPipe]

theorem File.asInode_type (f : File Page) (omode : UInt32) : (f.asInode omode).type ≠ .none := by
  simp [File.asInode]

/-- A free file has no type, and a file of a pipe is one end of it. -/
structure File.Good (f : File Page) : Prop where
  free : f.ref = 0 → f.type = .none
  piped : f.type = .pipe → ∃ pg, f.pipe = some pg ∧ f.readable = !f.writable

/-- A file in use that has not got its type yet. -/
structure File.Fresh (f : File Page) : Prop where
  type : f.type = .none
  ref : f.ref = 1

theorem File.Good.pipeEnd {f : File Page} (h : f.Good) (hf : f.type = .pipe) :
    ∃ pg, f.pipe = some pg ∧ f.pipeEnd = some (pg, f.writable) := by
  obtain ⟨pg, hpg, _⟩ := h.piped hf
  exact ⟨pg, hpg, by simp [File.pipeEnd, hf, hpg]⟩

theorem File.pipeEnd_of_type {f : File Page} (hf : f.type ≠ .pipe) : f.pipeEnd = none := by
  simp [File.pipeEnd, hf]

theorem File.Good.ref_pos {f : File Page} (h : f.Good) {e : Page × Bool}
    (he : f.pipeEnd = some e) : 0 < f.ref := by
  by_contra hzero
  have hnone := h.free (by omega)
  rw [File.pipeEnd_of_type (by simp [hnone])] at he
  cases he

/-- What `fileread` and `filewrite` do with a file that has a type. -/
theorem File.dispatch_cases {f : File Page} (hgood : f.Good) (htype : f.type ≠ .none)
    (allowed : Bool) : f.dispatch allowed = some .denied ∨ f.dispatch allowed = some .inode ∨
      allowed = true ∧ ∃ pg, f.dispatch allowed = some (.pipe pg) ∧
        f.pipeEnd = some (pg, f.writable) ∧ f.readable = !f.writable := by
  cases allowed with
  | false => exact .inl rfl
  | true =>
      cases hf : f.type with
      | none => exact absurd hf htype
      | inode =>
          refine .inr (.inl ?_)
          simp [File.dispatch, hf]
      | pipe =>
          obtain ⟨pg, hpg, hflag⟩ := hgood.piped hf
          refine .inr (.inr ⟨rfl, pg, ?_, ?_, hflag⟩)
          · simp [File.dispatch, hf, hpg]
          · simp [File.pipeEnd, hf, hpg]

namespace FTable

variable {t : FTable Page} {f g : Fin NFILE}

/-- The ends of pipes that there are files for. -/
def ends (t : FTable Page) (f : Fin NFILE) : Option (Page × Bool) := (t f).pipeEnd

@[simp] theorem modify_self (t : FTable Page) (f : Fin NFILE) (u : File Page → File Page) :
    t.modify f u f = u (t f) := by
  simp [modify]

theorem modify_of_ne (u : File Page → File Page) (h : g ≠ f) : t.modify f u g = t g := by
  simp [modify, h]

theorem ends_modify (t : FTable Page) (f : Fin NFILE) (u : File Page → File Page) :
    (t.modify f u).ends = Function.update t.ends f (u (t f)).pipeEnd := by
  funext g
  by_cases h : g = f
  · subst h
    simp [ends]
  · simp [ends, modify_of_ne u h, h]

theorem good_modify {u : File Page → File Page} (h : ∀ g, (t g).Good) (hf : (u (t f)).Good)
    (g : Fin NFILE) : (t.modify f u g).Good := by
  by_cases hg : g = f
  · subst hg
    simpa using hf
  · rw [modify_of_ne u hg]
    exact h g

/-! ## The counters -/

/-- `ref` set to another value. -/
def setRef (t : FTable Page) (f : Fin NFILE) (n : ℕ) : FTable Page :=
  t.modify f fun x => { x with ref := n }

theorem filealloc_some {t' : FTable Page} (h : t.filealloc = some (t', f)) :
    (t f).ref = 0 ∧ t' = t.setRef f 1 := by
  obtain ⟨g, hfind, heq⟩ := Option.map_eq_some_iff.mp h
  obtain ⟨rfl, rfl⟩ := Prod.mk.inj heq
  exact ⟨by simpa using List.find?_some hfind, rfl⟩

theorem filedup_of_pos (h : 0 < (t f).ref) : t.filedup f = some (t.setRef f ((t f).ref + 1)) := by
  rw [filedup, if_neg (by omega)]
  rfl

theorem setRef_ref (t : FTable Page) (f : Fin NFILE) (n : ℕ) (g : Fin NFILE) :
    (t.setRef f n g).ref = if g = f then n else (t g).ref := by
  by_cases h : g = f
  · subst h
    simp [setRef]
  · simp [setRef, modify_of_ne _ h, h]

theorem setRef_kind (t : FTable Page) (f : Fin NFILE) (n : ℕ) (g : Fin NFILE) :
    SameKind (t g) (t.setRef f n g) := by
  by_cases h : g = f
  · subst h
    rw [setRef, modify_self]
    exact ⟨rfl, rfl, rfl, rfl⟩
  · rw [setRef, modify_of_ne _ h]
    exact .refl _

theorem ends_setRef (t : FTable Page) (f : Fin NFILE) (n : ℕ) : (t.setRef f n).ends = t.ends := by
  funext g
  exact (setRef_kind t f n g).pipeEnd

theorem good_setRef (h : ∀ g, (t g).Good) {n : ℕ} (hn : 0 < n) (g : Fin NFILE) :
    (t.setRef f n g).Good := by
  refine good_modify h ⟨?_, (h f).piped⟩ g
  intro hzero
  change n = 0 at hzero
  omega

/-- The file given back. -/
def release (t : FTable Page) (f : Fin NFILE) : FTable Page :=
  t.modify f fun x => { x with ref := 0, type := .none }

theorem release_ref (t : FTable Page) (f g : Fin NFILE) :
    (t.release f g).ref = if g = f then 0 else (t g).ref := by
  by_cases h : g = f
  · subst h
    simp [release]
  · simp [release, modify_of_ne _ h, h]

theorem good_release (h : ∀ g, (t g).Good) (f g : Fin NFILE) : (t.release f g).Good :=
  good_modify h ⟨fun _ => rfl, fun h => by cases h⟩ g

theorem ends_release (t : FTable Page) (f : Fin NFILE) :
    (t.release f).ends = Function.update t.ends f none := by
  rw [release, ends_modify]
  rfl

/-- `fileclose`: a reference less, or the last one gone and the end of the pipe to be closed. -/
inductive Closed (t : FTable Page) (f : Fin NFILE) : FTable Page → Option (Page × Bool) → Prop
  | shared : 1 < (t f).ref → Closed t f (t.setRef f ((t f).ref - 1)) none
  | last : (t f).ref = 1 → Closed t f (t.release f) (t.ends f)

variable {t' : FTable Page} {e : Option (Page × Bool)}

theorem Closed.pos (h : Closed t f t' e) : 0 < (t f).ref := by
  cases h with
  | shared hone => omega
  | last hone => omega

theorem Closed.ref (h : Closed t f t' e) (g : Fin NFILE) :
    (t' g).ref = if g = f then (t g).ref - 1 else (t g).ref := by
  cases h with
  | shared hone =>
      rw [setRef_ref]
      split
      · rename_i hg
        rw [hg]
      · rfl
  | last hone =>
      rw [release_ref]
      split
      · rename_i hg
        rw [hg, hone]
      · rfl

theorem Closed.good (h : Closed t f t' e) (hgood : ∀ g, (t g).Good) (g : Fin NFILE) :
    (t' g).Good := by
  cases h with
  | shared hone => exact good_setRef hgood (by omega) g
  | last hone => exact good_release hgood f g

/-- What the files have lost is what is to be closed. -/
theorem Closed.count [DecidableEq Page] (h : Closed t f t' e) (x : Page × Bool) :
    Pointers.count t'.ends x + (if e = some x then 1 else 0) = Pointers.count t.ends x := by
  cases h with
  | shared hone => simp [ends_setRef]
  | last hone =>
      have hcount := Pointers.count_update t.ends f none x
      rw [if_neg (show ¬ (none : Option (Page × Bool)) = some x by simp)] at hcount
      rw [ends_release]
      exact hcount

end FTable

namespace OFile

variable {o o' : OFile} {p q : Fin NPROC} {fd : Fin NOFILE} {f : Fin NFILE}

@[simp] theorem set_self (o : OFile) (p : Fin NPROC) (fd : Fin NOFILE) (v : Option (Fin NFILE)) :
    o.set p fd v p = Function.update (o p) fd v := by
  simp [set]

theorem set_of_ne (fd : Fin NOFILE) (v : Option (Fin NFILE)) (h : q ≠ p) :
    o.set p fd v q = o q := by
  simp [set, h]

theorem set_set (o : OFile) (p : Fin NPROC) (fd : Fin NOFILE) (v w : Option (Fin NFILE)) :
    (o.set p fd v).set p fd w = o.set p fd w := by
  simp [set]

theorem set_eq_self (h : o p fd = none) : o.set p fd none = o := by
  rw [set, ← h, Function.update_eq_self, Function.update_eq_self]

theorem fdalloc_some (h : o.fdalloc p f = some (o', fd)) :
    o p fd = none ∧ o' = o.set p fd (some f) := by
  obtain ⟨d, hfind, heq⟩ := Option.map_eq_some_iff.mp h
  obtain ⟨rfl, rfl⟩ := Prod.mk.inj heq
  exact ⟨by simpa using List.find?_some hfind, rfl⟩

end OFile

end OsSolutions
