import Mathlib.Data.List.Chain
import Mathlib.Data.List.Nodup
import Mathlib.Logic.Relation

/-! # Forests of parent pointers

Every node points to its parent, if it has one, and a rank grows from parents to children. A
walk over the lists of children then visits everything below a node once. -/

namespace Pointers

variable {α : Type*}

/-- `x` is `y` or a descendant of `y`. -/
def Below (parent : α → Option α) : α → α → Prop :=
  Relation.ReflTransGen fun x y => parent x = some y

/-- No line of descent from `a` on has more than `n` nodes. -/
def HeightLE (parent : α → Option α) (n : ℕ) (a : α) : Prop :=
  ∀ l : List α, List.IsChain (fun x y => parent y = some x) (a :: l) → (a :: l).length ≤ n

/-- The nodes below `a`, parents first, down to a depth. -/
def preorder (children : α → List α) : ℕ → α → List α
  | 0, _ => []
  | n + 1, a => a :: (children a).flatMap (preorder children n)

structure Forest (parent : α → Option α) (children : α → List α) (rank : α → ℕ) : Prop where
  mem : ∀ {a c}, c ∈ children a ↔ parent c = some a
  nodup : ∀ a, (children a).Nodup
  rank_lt : ∀ {a c}, parent c = some a → rank a < rank c

namespace Forest

variable {parent : α → Option α} {children : α → List α} {rank : α → ℕ} {a b c x y : α} {n : ℕ}

theorem not_heightLE_zero : ¬HeightLE parent 0 a := by
  intro h
  exact absurd (h [] (List.isChain_singleton a)) (by simp)

theorem heightLE_succ_iff :
    HeightLE parent (n + 1) a ↔ ∀ c, parent c = some a → HeightLE parent n c := by
  constructor
  · intro h c hc l hl
    have hlen := h (c :: l) (List.isChain_cons_cons.mpr ⟨hc, hl⟩)
    rw [List.length_cons] at hlen
    omega
  · rintro h (_ | ⟨c, l⟩) hl
    · simp
    · obtain ⟨hc, hl⟩ := List.isChain_cons_cons.mp hl
      have hlen := h c hc l hl
      rw [List.length_cons]
      omega

theorem rank_le (h : Forest parent children rank) (hxy : Below parent x y) : rank y ≤ rank x := by
  induction hxy with
  | refl => exact Nat.le_refl _
  | tail _ hp ih => exact Nat.le_trans (Nat.le_of_lt (h.rank_lt hp)) ih

/-- Two nodes above the same node are above each other one way or the other. -/
theorem comparable (hb : Below parent x b) (hc : Below parent x c) :
    Below parent b c ∨ Below parent c b :=
  Relation.ReflTransGen.total_of_right_unique
    (fun _ _ _ hy hz => Option.some.inj (hy.symm.trans hz)) hb hc

/-- What is strictly below `b` is below a child of `b`, so no child is below its sibling. -/
theorem siblings_apart (h : Forest parent children rank) (hb : parent b = some a)
    (hc : parent c = some a) (hbc : Below parent b c) : b = c := by
  rcases Relation.ReflTransGen.cases_head hbc with rfl | ⟨y, hy, hyc⟩
  · rfl
  · obtain rfl : a = y := Option.some.inj (hb.symm.trans hy)
    have hle := h.rank_le hyc
    have hlt := h.rank_lt hc
    omega

theorem disjoint (h : Forest parent children rank) (hb : parent b = some a)
    (hc : parent c = some a) (hxb : Below parent x b) (hxc : Below parent x c) : b = c := by
  rcases comparable hxb hxc with hbc | hcb
  · exact h.siblings_apart hb hc hbc
  · exact (h.siblings_apart hc hb hcb).symm

theorem below_iff : Below parent x a ↔ x = a ∨ ∃ c, parent c = some a ∧ Below parent x c := by
  rw [Below, Relation.ReflTransGen.cases_tail_iff]
  constructor
  · rintro (rfl | ⟨c, hxc, hc⟩)
    · exact .inl rfl
    · exact .inr ⟨c, hc, hxc⟩
  · rintro (rfl | ⟨c, hc, hxc⟩)
    · exact .inl rfl
    · exact .inr ⟨c, hxc, hc⟩

/-! ## The walk -/

/-- A depth that no line of descent exceeds is enough. -/
theorem mem_preorder (h : Forest parent children rank) (hn : HeightLE parent n a) :
    x ∈ preorder children n a ↔ Below parent x a := by
  induction n generalizing a with
  | zero => exact absurd hn not_heightLE_zero
  | succ n ih =>
      rw [preorder, List.mem_cons, List.mem_flatMap, below_iff]
      apply or_congr_right
      apply exists_congr
      intro c
      rw [h.mem]
      apply and_congr_right
      intro hc
      exact ih (heightLE_succ_iff.mp hn c hc)

theorem preorder_nodup (h : Forest parent children rank) (hn : HeightLE parent n a) :
    (preorder children n a).Nodup := by
  induction n generalizing a with
  | zero => exact List.nodup_nil
  | succ n ih =>
      have hdeep : ∀ c ∈ children a, HeightLE parent n c :=
        fun c hc => heightLE_succ_iff.mp hn c (h.mem.mp hc)
      rw [preorder, List.nodup_cons, List.nodup_flatMap]
      refine ⟨?_, fun c hc => ih (hdeep c hc), ?_⟩
      · rw [List.mem_flatMap]
        rintro ⟨c, hc, hac⟩
        have hle := h.rank_le ((h.mem_preorder (hdeep c hc)).mp hac)
        have hlt := h.rank_lt (h.mem.mp hc)
        omega
      · apply (h.nodup a).pairwise_of_forall_ne
        intro b hb c hc hne x hxb hxc
        apply hne
        exact h.disjoint (h.mem.mp hb) (h.mem.mp hc) ((h.mem_preorder (hdeep b hb)).mp hxb)
          ((h.mem_preorder (hdeep c hc)).mp hxc)

/-- No node comes before its parent. -/
theorem preorder_parents_first (h : Forest parent children rank) (hn : HeightLE parent n a) :
    (preorder children n a).Pairwise fun x y => parent x ≠ some y := by
  induction n generalizing a with
  | zero => exact List.Pairwise.nil
  | succ n ih =>
      have hdeep : ∀ c ∈ children a, HeightLE parent n c :=
        fun c hc => heightLE_succ_iff.mp hn c (h.mem.mp hc)
      rw [preorder, List.pairwise_cons, List.pairwise_flatMap]
      refine ⟨?_, fun c hc => ih (hdeep c hc), ?_⟩
      · intro y hy hparent
        obtain ⟨c, hc, hyc⟩ := List.mem_flatMap.mp hy
        have hle := h.rank_le ((h.mem_preorder (hdeep c hc)).mp hyc)
        have hlt := h.rank_lt (h.mem.mp hc)
        have hgt := h.rank_lt hparent
        omega
      · apply (h.nodup a).pairwise_of_forall_ne
        intro b hb c hc hne x hx y hy hparent
        apply hne
        have hyc := (h.mem_preorder (hdeep c hc)).mp hy
        exact h.disjoint (h.mem.mp hb) (h.mem.mp hc) ((h.mem_preorder (hdeep b hb)).mp hx)
          (hyc.head hparent)

end Forest

end Pointers
