import Mathlib.Algebra.BigOperators.Group.List.Basic
import Mathlib.Algebra.GroupWithZero.Nat
import Mathlib.Order.Interval.Finset.Nat

/-!
# Blocks of an address space

An `Extent bound` is a non-empty block of the addresses below `bound`, not at address 0.  Blocks
that do not overlap fit into the address space together (`total_lt`).
-/

structure Extent (bound : Nat) where
  start : Nat
  size : Nat
  start_pos : 0 < start
  size_pos : 0 < size
  fits : start + size ≤ bound
deriving DecidableEq

namespace Extent

variable {bound : Nat} {b : Extent bound} {blocks : List (Extent bound)}

def Apart (b c : Extent bound) : Prop := b.start + b.size ≤ c.start ∨ c.start + c.size ≤ b.start

theorem size_lt (b : Extent bound) : b.size < bound := by
  have := b.start_pos
  have := b.fits
  omega

def total (blocks : List (Extent bound)) : Nat := (blocks.map size).sum

@[simp] theorem total_cons : total (b :: blocks) = b.size + total blocks := by simp [total]

theorem total_erase (h : b ∈ blocks) : b.size + total (blocks.erase b) = total blocks :=
  List.sum_map_erase size h

/-- The addresses of some blocks. -/
def cells (blocks : List (Extent bound)) : Finset Nat :=
  blocks.foldr (fun b cs => Finset.Ico b.start (b.start + b.size) ∪ cs) ∅

@[simp] theorem cells_cons :
    cells (b :: blocks) = Finset.Ico b.start (b.start + b.size) ∪ cells blocks := rfl

theorem mem_cells {x : Nat} :
    x ∈ cells blocks ↔ ∃ b ∈ blocks, b.start ≤ x ∧ x < b.start + b.size := by
  induction blocks with
  | nil => simp [cells]
  | cons b blocks ih => simp [ih]

theorem card_cells (h : blocks.Pairwise Apart) : (cells blocks).card = total blocks := by
  induction blocks with
  | nil => rfl
  | cons b blocks ih =>
    obtain ⟨hb, hblocks⟩ := List.pairwise_cons.mp h
    have hdisj : Disjoint (Finset.Ico b.start (b.start + b.size)) (cells blocks) := by
      rw [Finset.disjoint_left]
      intro x hx hmem
      obtain ⟨c, hc, hlow, hhigh⟩ := mem_cells.mp hmem
      rw [Finset.mem_Ico] at hx
      have := hb c hc
      unfold Apart at this
      omega
    rw [cells_cons, Finset.card_union_of_disjoint hdisj, Nat.card_Ico, ih hblocks, total_cons]
    omega

theorem cells_subset (blocks : List (Extent bound)) : cells blocks ⊆ Finset.Ico 1 bound := by
  intro x hx
  obtain ⟨b, -, hlow, hhigh⟩ := mem_cells.mp hx
  have := b.start_pos
  have := b.fits
  rw [Finset.mem_Ico]
  omega

theorem total_lt (h : blocks.Pairwise Apart) (hbound : 0 < bound) : total blocks < bound := by
  have hcard := Finset.card_le_card (cells_subset blocks)
  rw [card_cells h, Nat.card_Ico] at hcard
  omega

end Extent
